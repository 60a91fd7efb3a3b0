import SwordFS.Chunk.Alone
import SwordFS.Chunk.Slice.Flush
import SwordFS.Chunk.Slice.Resolve
import SwordFS.Metadata.Properties.FileSnapshot

/-!
# 誰にも邪魔されない Slice の候補の公開

失敗が起きず他の誰も動かないとき、`PublishFrozen` が一つの候補を公開できる条件を求める。
判断に使うのは、その位置の attachment、各 ChunkID の index と次の番号だけなので、
それらを `PublishView` に写し、公開をその上の関数 `FrozenSlice.after` として述べる。

候補は、record を書いた ChunkID、作った ChunkID、書けたか分からない ChunkID を覚えている。
公開できるかどうかは、それらと今の index の食い違いで決まる。
-/

namespace SwordFS.Chunk.Slice

open Infra Metadata

variable {cx : MetaContext} {ino : InodeID} {i k : Nat} {c : FrozenSlice} {sc : SliceChunk}
  {b : Backend} {record : SliceRecord}

/-! ## 公開の view -/

/-- 公開の判断に使う外部状態 -/
structure PublishView where
  attached : Option ChunkID
  index : ChunkID → List SliceRecord
  nextChunkID : Nat

def publishView (ino : InodeID) (i : Nat) (b : Backend) : PublishView :=
  ⟨attachedAt b.redis ino i, b.sliceIndex, b.nextChunkID⟩

namespace FrozenSlice

def target (c : FrozenSlice) (v : PublishView) : ChunkID :=
  v.attached.getD (c.createdChunkId.getD (v.nextChunkID + 1))

def Fresh (c : FrozenSlice) (v : PublishView) : Prop := v.attached = none ∧ c.createdChunkId = none

instance (c : FrozenSlice) (v : PublishView) : Decidable (c.Fresh v) :=
  inferInstanceAs (Decidable (_ ∧ _))

def prepared (c : FrozenSlice) : SliceRecord := c.record (c.preparedId.getD 0)

/-- `id` の index に record を書いたとも、書いたかもしれないとも覚えていない -/
def Unwritten (c : FrozenSlice) (id : ChunkID) : Prop :=
  c.recordedChunkId ≠ some id ∧ c.uncertainRecordChunkId ≠ some id

instance (c : FrozenSlice) (id : ChunkID) : Decidable (c.Unwritten id) :=
  inferInstanceAs (Decidable (_ ∧ _))

/-- record の段が通る条件。`records` は `id` の index -/
def RecordAccepted (chunkSize : Nat) (c : FrozenSlice) (id : ChunkID) (attached : Bool)
    (records : List SliceRecord) : Prop :=
  c.recordedChunkId = some id ∨
    c.uncertainRecordChunkId = some id ∧ validateRecords chunkSize records = .ok () ∧
      c.prepared ∈ records ∨
    c.Unwritten id ∧ (records = [] ↔ attached = false)

def recordedIndex (c : FrozenSlice) (id : ChunkID) (index : ChunkID → List SliceRecord) :
    ChunkID → List SliceRecord :=
  if c.Unwritten id then Function.update index id (index id ++ [c.prepared]) else index

/-- view の上で公開が通る条件 -/
structure Accepted (chunkSize : Nat) (c : FrozenSlice) (v : PublishView) : Prop where
  valid : isValidChunkID (c.target v) = true
  record : c.RecordAccepted chunkSize (c.target v) v.attached.isSome (v.index (c.target v))

def after (c : FrozenSlice) (v : PublishView) : PublishView where
  attached := some (c.target v)
  index := c.recordedIndex (c.target v) v.index
  nextChunkID := if c.Fresh v then v.nextChunkID + 1 else v.nextChunkID

def endOff (chunkSize i : Nat) (c : FrozenSlice) : Nat :=
  i * chunkSize + c.pos + min c.eofLen c.visibleLen

/-- 準備が済み、record が chunk と file の上限に収まる -/
structure Presentable (chunkSize i : Nat) (c : FrozenSlice) : Prop where
  prepared : c.preparedId.isSome = true
  record : validateRecord c.prepared chunkSize = .ok ()
  inFile : i * chunkSize + c.pos + c.visibleLen ≤ kMaxSupportedFileSize
  extends_ : 0 < c.pos + min c.eofLen c.visibleLen

end FrozenSlice

def FileWritable (cx : MetaContext) (ino : InodeID) (i : Nat) (s : Redis) : Prop :=
  ∃ file, SnapshotOf cx.chunkSize s ino i file ∧
    hasRestrictiveInodePolicy file.inode.attr = false

/-- 一つの候補が邪魔されずに公開できる条件 -/
structure Publishable (cx : MetaContext) (ino : InodeID) (i : Nat) (c : FrozenSlice)
    (b : Backend) : Prop where
  file : FileWritable cx ino i b.redis
  present : c.Presentable cx.chunkSize i
  accepted : c.Accepted cx.chunkSize (publishView ino i b)

/-- `b` から候補 `c` を公開したのが `b'` -/
structure CandidatePublished (cx : MetaContext) (ino : InodeID) (i : Nat) (c : FrozenSlice)
    (b b' : Backend) : Prop where
  view : publishView ino i b' = c.after (publishView ino i b)
  file : FilePublished ino i (c.target (publishView ino i b)) (c.endOff cx.chunkSize i)
    b.redis b'.redis
  objects : b'.objects = b.objects
  nextSliceID : b'.nextSliceID = b.nextSliceID

/-! ## ChunkID を決める -/

def ChangesOnly (k : Nat) (sc sc' : SliceChunk) : Prop :=
  ∃ f, sc' = { sc with frozen := sc.frozen.modify k f }

theorem changesOnly_refl (k : Nat) (sc : SliceChunk) : ChangesOnly k sc sc :=
  ⟨id, by simp⟩

theorem ChangesOnly.trans (h : ChangesOnly k sc sc₁)
    (h' : ChangesOnly k sc₁ sc₂) : ChangesOnly k sc sc₂ := by
  obtain ⟨f, rfl⟩ := h
  obtain ⟨g, rfl⟩ := h'
  exact ⟨g ∘ f, by simp [List.modify_modify_eq]⟩

theorem ChangesOnly.length_eq (h : ChangesOnly k sc sc') :
    sc'.frozen.length = sc.frozen.length := by
  obtain ⟨f, rfl⟩ := h
  simp

theorem alone_modifyCandidate_iff (hE : ∃ a, E a)
    :
    Alone E (modifyCandidate k f) Q (sc, b) ↔
      Q (.ok ()) ({ sc with frozen := sc.frozen.modify k f }, b) :=
  alone_modifySession_iff hE

/-- 候補の ChunkID を割り当てた後の外部状態 -/
def withTarget (ino : InodeID) (i : Nat) (c : FrozenSlice) (b : Backend) : Backend :=
  if c.Fresh (publishView ino i b) then
    { b with
      nextChunkID := b.nextChunkID + 1
      chunkOwner := Function.update b.chunkOwner (b.nextChunkID + 1) (some i) }
  else b

section

variable (ino i c b)

@[simp] theorem withTarget_redis : (withTarget ino i c b).redis = b.redis := by
  unfold withTarget; split <;> rfl
@[simp] theorem withTarget_objects : (withTarget ino i c b).objects = b.objects := by
  unfold withTarget; split <;> rfl
@[simp] theorem withTarget_sliceIndex : (withTarget ino i c b).sliceIndex = b.sliceIndex := by
  unfold withTarget; split <;> rfl
theorem withTarget_nextChunkID : (withTarget ino i c b).nextChunkID =
    if c.Fresh (publishView ino i b) then b.nextChunkID + 1 else b.nextChunkID := by
  unfold withTarget; split <;> rfl
@[simp] theorem withTarget_nextSliceID : (withTarget ino i c b).nextSliceID = b.nextSliceID := by
  unfold withTarget; split <;> rfl

end

theorem publicationID_alone (hatt : attached = attachedAt b.redis ino i)
    (hok : ∀ sc', ChangesOnly k sc sc' →
      Q (.ok (c.target (publishView ino i b))) (sc', withTarget ino i c b))
    (herr : ∀ e s, isValidChunkID (c.target (publishView ino i b)) = false → Q (.error e) s) :
    Alone Answer.NoFault (publicationID i k c attached) Q (sc, b) := by
  subst hatt
  unfold publicationID
  unfold FrozenSlice.target withTarget FrozenSlice.Fresh publishView at *
  cases ha : attachedAt b.redis ino i with
  | some id => simpa [ha] using hok sc (changesOnly_refl k sc)
  | none =>
    cases hc : c.createdChunkId with
    | some id => simpa [ha, hc] using hok sc (changesOnly_refl k sc)
    | none =>
      simp only [ha, hc, Option.getD_none, and_self, if_true] at hok herr
      refine .bind (.onBackend (alone_allocateChunkID_iff.mpr ?_))
      split
      · next hmax =>
        exact herr _ _ (Bool.eq_false_iff.mpr fun h =>
          Nat.not_lt.mpr hmax (isValidChunkID_succ_iff.mp h))
      · next hmax =>
        refine .bind (.failIf ⟨fun h => ?_, fun _ => ?_⟩)
        · rcases h with h | h
          · exact absurd h (Nat.succ_ne_zero _)
          · exact absurd (Nat.lt_of_not_le hmax) (Nat.not_lt.mpr (Nat.le_of_lt_succ h))
        · exact .bind ((alone_modifyCandidate_iff exists_noFault).mpr
            (.pure (hok _ ⟨_, rfl⟩)))

/-! ## record を書く -/

/-- index の読みは、全ての record が正しく一つ以上あるときに限り成功する -/
theorem readRecords_alone {id : ChunkID} (hid : isValidChunkID id = true)
    (hok : b.sliceIndex id ≠ [] → validateRecords cx.chunkSize (b.sliceIndex id) = .ok () →
      Q (.ok (b.sliceIndex id)) b)
    (herr : ∀ e, ¬ (b.sliceIndex id ≠ [] ∧
      validateRecords cx.chunkSize (b.sliceIndex id) = .ok ()) → Q (.error e) b) :
    Alone Answer.NoFault (readRecords cx id) Q b := by
  refine .query ?_
  simp only [Result.failIf, hid, Bool.not_true, Bool.false_eq_true, if_false]
  by_cases hnil : b.sliceIndex id = []
  · simp only [if_pos hnil]
    exact herr _ fun h => h.1 hnil
  · simp only [if_neg hnil]
    cases hv : validateRecords cx.chunkSize (b.sliceIndex id) with
    | ok u => exact hok hnil hv
    | error e => exact herr e fun h => by simp [hv] at h

/-- 読み返しは、record が index に在って全体が読めるときに限り成功する -/
theorem recordPresent_alone {id : ChunkID} (hid : isValidChunkID id = true)
    (hyes : validateRecords cx.chunkSize (b.sliceIndex id) = .ok () → record ∈ b.sliceIndex id →
      Q (.ok true) b)
    (hno : ¬ (validateRecords cx.chunkSize (b.sliceIndex id) = .ok () ∧
      record ∈ b.sliceIndex id) → ∀ r, r ≠ .ok true → Q r b) :
    Alone Answer.NoFault (recordPresent cx id record) Q b := by
  refine .bind (.attempt (readRecords_alone hid ?_ ?_))
  · intro hne hv
    refine .pure ?_
    by_cases hmem : record ∈ b.sliceIndex id
    · have hany : (b.sliceIndex id).any (· == record) = true :=
        List.any_eq_true.mpr ⟨record, hmem, by simp⟩
      rw [hany]
      exact hyes hv hmem
    · refine hno (fun h => hmem h.2) _ ?_
      simpa using hmem
  · intro e h
    have habs : ¬ (validateRecords cx.chunkSize (b.sliceIndex id) = .ok () ∧
        record ∈ b.sliceIndex id) := fun h' => h ⟨List.ne_nil_of_mem h'.2, h'.1⟩
    simp only [next_ok]
    split
    · exact .pure (hno habs _ (by simp))
    · exact .throw (hno habs _ (by simp))

section

variable {id : ChunkID}

theorem checkPendingRecord_ok (hid : isValidChunkID id = true)
    (hr : validateRecord record cx.chunkSize = .ok ()) :
    checkPendingRecord cx id record = .ok () := by
  simp [checkPendingRecord, hid, hr, Result.failIf]

/-- 検査を通る record の書き込みは、index が在るべき通りに在るときに限り効く -/
theorem writeRecord_alone
    (hid : isValidChunkID id = true) (hr : validateRecord record cx.chunkSize = .ok ())
    (hok : (b.sliceIndex id = [] ↔ attached = false) → Q (.ok ()) { b with
      sliceIndex := Function.update b.sliceIndex id (b.sliceIndex id ++ [record]) })
    (herr : ¬ (b.sliceIndex id = [] ↔ attached = false) → ∀ e, e.isOutcomeUnknown = false →
      Q (.error e) b) :
    Alone Answer.NoFault
      (if attached then appendRecord cx id record else createIndex cx id record) Q b := by
  cases attached with
  | true =>
    simp only [appendRecord, alone_call_noFault_iff, checkPendingRecord_ok hid hr, if_true]
    intro now
    split
    · next hnil => exact herr (by simp [hnil]) _ rfl
    · next hne => exact hok (by simp [hne])
  | false =>
    simp only [createIndex, alone_call_noFault_iff, checkPendingRecord_ok hid hr,
      Bool.false_eq_true, if_false]
    intro now
    split
    · next hnil =>
      have h := hok (by simp [hnil])
      rw [hnil] at h
      exact h
    · next hne => exact herr (by simp [hne]) _ rfl

end

theorem recordCandidate_alone {id : ChunkID} (hid : isValidChunkID id = true)
    (hr : validateRecord c.prepared cx.chunkSize = .ok ())
    (hok : c.RecordAccepted cx.chunkSize id attached (b.sliceIndex id) →
      ∀ sc', ChangesOnly k sc sc' →
        Q (.ok ()) (sc', { b with sliceIndex := c.recordedIndex id b.sliceIndex }))
    (herr : ¬ c.RecordAccepted cx.chunkSize id attached (b.sliceIndex id) →
      ∀ e s, Q (.error e) s) :
    Alone Answer.NoFault (recordCandidate cx k c c.prepared id attached) Q (sc, b) := by
  unfold recordCandidate
  unfold FrozenSlice.recordedIndex at hok
  split
  · next hrec =>
    rw [if_neg fun h => h.1 hrec] at hok
    exact .pure (hok (.inl hrec) sc (changesOnly_refl k sc))
  next hrec =>
  split
  · next hunc =>
    rw [if_neg fun h => h.2 hunc] at hok
    refine .bind (.attempt (.onBackend
      (recordPresent_alone hid ?_ ?_)))
    · intro hv hmem
      exact (alone_modifyCandidate_iff exists_noFault).mpr
        (hok (.inr (.inl ⟨hunc, hv, hmem⟩)) _ ⟨_, rfl⟩)
    · intro habs r hne
      have hno : ¬ c.RecordAccepted cx.chunkSize id attached (b.sliceIndex id) := by
        rintro (h | h | h)
        · exact hrec h
        · exact habs h.2
        · exact h.1.2 hunc
      simp only [next_ok]
      exact .throw (herr hno _ _)
  · next hunc =>
    have hunw : c.Unwritten id := ⟨hrec, hunc⟩
    rw [if_pos hunw] at hok
    refine .bind (.attempt (.onBackend
      (writeRecord_alone hid hr ?_ ?_)))
    · intro hidx
      exact (alone_modifyCandidate_iff exists_noFault).mpr
        (hok (.inr (.inr ⟨hunw, hidx⟩)) _ ⟨_, rfl⟩)
    · intro hidx e he
      have hno : ¬ c.RecordAccepted cx.chunkSize id attached (b.sliceIndex id) := by
        rintro (h | h | h)
        · exact hrec h
        · exact hunc h.1
        · exact hidx h.2
      simp only [next_ok, he, Bool.false_eq_true, if_false]
      exact .throw (herr hno _ _)

/-! ## 確定 -/

section

variable {endOff : Nat}

/-- 候補の数と file の metadata。公開の準備はこれらを変えない -/
def publishBase (s : SliceChunk × Backend) : Nat × Redis := (s.1.frozen.length, s.2.redis)

theorem keeps_modifyCandidate (f : FrozenSlice → FrozenSlice) :
    Keeps publishBase (modifyCandidate k f) :=
  keeps_modifySession fun c b => by simp [publishBase]

theorem keeps_onBackend_redis {α : Type} {p : Io Backend α} (h : Keeps Backend.redis p) :
    Keeps publishBase (onBackend p) :=
  fun s => .onBackend ((h s.2).mono fun _ _ hb => by simp [publishBase, hb])

theorem keeps_publicationID (attached : Option ChunkID) :
    Keeps publishBase (publicationID i k c attached) := by
  unfold publicationID
  split
  · exact keeps_pure _
  · exact keeps_pure _
  · refine (keeps_onBackend_redis (keeps_call (fun now b => ?_) fun _ _ _ => rfl)).bind fun _ =>
      (keeps_failIf _ _).bind fun _ => (keeps_modifyCandidate _).bind fun _ => keeps_pure _
    split <;> rfl

theorem keeps_recordPresent (id : ChunkID) : Keeps Backend.redis (recordPresent cx id record) := by
  refine (keeps_query _).attempt.bind fun r => ?_
  split
  · split
    · exact keeps_pure _
    · exact keeps_throw _
  · exact keeps_pure _

theorem keeps_writeRecord (id : ChunkID) (attached : Bool) :
    Keeps Backend.redis
      (if attached then appendRecord cx id record else createIndex cx id record) := by
  split
  all_goals
    refine keeps_call (fun now b => ?_) fun _ _ _ => rfl
    split
    · rfl
    · split <;> rfl

theorem keeps_recordCandidate (id : ChunkID) (attached : Bool) :
    Keeps publishBase (recordCandidate cx k c record id attached) := by
  have hpresent : Keeps publishBase (attempt (onBackend (recordPresent cx id record))) :=
    (keeps_onBackend_redis (keeps_recordPresent id)).attempt
  unfold recordCandidate
  split
  · exact keeps_pure _
  split
  · refine hpresent.bind fun r => ?_
    split
    · exact keeps_modifyCandidate _
    · exact keeps_throw _
  · refine (keeps_onBackend_redis (keeps_writeRecord id attached)).attempt.bind fun r => ?_
    split
    · exact keeps_modifyCandidate _
    · split
      · refine (keeps_modifyCandidate _).bind fun _ => hpresent.bind fun r => ?_
        split
        · exact keeps_modifyCandidate _
        · exact keeps_throw _
      · exact keeps_throw _

variable {file : FileChunkSnapshot} {id : ChunkID}

/-- 公開の一回の後半。metadata を確定し、失われた返事は読み返して確かめる -/
def finishPublish (cx : MetaContext) (ino : InodeID) (i endOff : Nat) (file : FileChunkSnapshot)
    (id : ChunkID) (retry : SessionIo SliceChunk Unit) : SessionIo SliceChunk Unit := do
  match ← attempt (onBackend (transact cx fun cx =>
      if file.chunkId.isSome then finalizeAttachedWrite cx ino i id endOff
        ⟨file.inode.attr.size, file.eofBoundary⟩
      else attachPrepared cx ino i id endOff ⟨file.inode.attr.size, file.eofBoundary⟩)) with
  | .ok () => return ()
  | .error e =>
    if e.isOutcomeUnknown then
      if file.chunkId.isSome then throw e
      else if ← onBackend (confirmAttachment cx ino i endOff id) then return ()
      else throw e
    else if e.isEexist then retry
    else throw e

theorem finalize_refused (hsnap : SnapshotOf cx.chunkSize b.redis ino i file)
    (hp : hasRestrictiveInodePolicy file.inode.attr = true)
    (hretry : Alone Answer.NoFault retry (fun r _ => ∃ e, r = .error e) (sc, b)) :
    Alone Answer.NoFault (finishPublish cx ino i endOff file id retry)
      (fun r _ => ∃ e, r = .error e) (sc, b) := by
  refine .bind (.attempt (.onBackend
    (alone_transact_noFault_iff.mpr fun now => ?_)))
  have hsnap' : SnapshotOf { cx with now := now }.chunkSize b.redis ino i file := hsnap
  obtain ⟨e, hcommit⟩ := hsnap'.publishTxn_refused file.chunkId.isSome hp
  rw [publishTxn] at hcommit
  rw [hcommit]
  simp only [next_ok]
  split
  · split
    · exact .throw ⟨e, rfl⟩
    · next hnone =>
      have hnone' : file.chunkId = none := Option.not_isSome_iff_eq_none.mp hnone
      refine .bind (.onBackend (.bind
        (.attempt (.query ?_))))
      rw [readFileChunkSnapshot_ok_iff.mpr hsnap]
      simp only [next_ok, hnone', alone_pure_iff, reduceCtorEq, false_and, decide_false,
        Bool.false_eq_true, if_false]
      exact .throw ⟨e, rfl⟩
  · split
    · exact hretry
    · exact .throw ⟨e, rfl⟩

theorem publishAttempts_refused (attempts : Nat) (hk : k < sc.frozen.length)
    (hsnap : SnapshotOf cx.chunkSize b.redis ino i file)
    (hp : hasRestrictiveInodePolicy file.inode.attr = true) :
    Alone Answer.NoFault (publishAttempts cx ino i k record endOff attempts)
      (fun r _ => ∃ e, r = .error e) (sc, b) := by
  induction attempts generalizing sc b with
  | zero => exact .throw ⟨_, rfl⟩
  | succ attempts ih =>
    refine .bind (.onBackend (.query ?_))
    rw [readFileChunkSnapshot_ok_iff.mpr hsnap]
    refine .bind (.bind (.getSession
      (.pure ?_)))
    have hc : sc.frozen[k]? = some (sc.frozen[k]) := List.getElem?_eq_getElem hk
    simp only [next_ok, hc]
    refine .bind (((keeps_publicationID _ _).weaken fun _ _ => trivial).mono ?_)
    rintro (e | id) ⟨sc₁, b₁⟩ h₁
    · exact ⟨e, rfl⟩
    refine .bind (((keeps_recordCandidate _ _ _).weaken fun _ _ => trivial).mono ?_)
    rintro (e | u) ⟨sc₂, b₂⟩ h₂
    · exact ⟨e, rfl⟩
    obtain ⟨hlen, hredis⟩ := Prod.mk.inj (h₂.trans h₁)
    dsimp only at hlen hredis
    have hsnap₂ : SnapshotOf cx.chunkSize b₂.redis ino i file := hredis ▸ hsnap
    exact finalize_refused hsnap₂ hp (ih (by omega) hsnap₂)

theorem validateFileChunkWrite_error
    (h : validateFileChunkWrite i id endOff cs = .error e) : ∃ msg, e = .invalidArgument msg := by
  unfold validateFileChunkWrite at h
  split at h
  · cases h; exact ⟨_, rfl⟩
  · split at h
    · cases h; exact ⟨_, rfl⟩
    · split at h
      · cases h; exact ⟨_, rfl⟩
      · cases h

theorem publishTxn_invalid (hw : validateFileChunkWrite i id endOff cx.chunkSize = .error e) :
    (publishTxn cx ino i id endOff expected attached).commit s = (.error e, s) := by
  cases attached <;> simp [publishTxn, attachPrepared, finalizeAttachedWrite, Txn.commit,
    Txn.eval_bind, Txn.ofExcept, Except.bind, hw]

theorem finalize_invalid
    (hw : validateFileChunkWrite i id endOff cx.chunkSize = .error e) (hQ : ∀ e s, Q (.error e) s) :
    Alone Answer.NoFault (finishPublish cx ino i endOff file id retry) Q (sc, b) := by
  refine .bind (.attempt (.onBackend
    (alone_transact_noFault_iff.mpr fun now => ?_)))
  have hcommit : (publishTxn { cx with now := now } ino i id endOff
      ⟨file.inode.attr.size, file.eofBoundary⟩ file.chunkId.isSome).commit b.redis =
        (.error e, b.redis) := publishTxn_invalid hw
  rw [publishTxn] at hcommit
  rw [hcommit]
  obtain ⟨msg, rfl⟩ := validateFileChunkWrite_error hw
  simp only [next_ok, Status.isOutcomeUnknown, Status.isEexist]
  exact .throw (hQ _ _)

/-! ## 公開 -/

def PublishOutcome (cx : MetaContext) (ino : InodeID) (i k : Nat) (c : FrozenSlice)
    (sc : SliceChunk) (b : Backend) : Result Unit → SliceChunk × Backend → Prop
  | .ok (), s => Publishable cx ino i c b ∧ ChangesOnly k sc s.1 ∧
      CandidatePublished cx ino i c b s.2
  | .error _, _ => ¬ Publishable cx ino i c b

theorem validateWrite_iff (hv : validateRecord c.prepared cx.chunkSize = .ok ())
    (hfile : i * cx.chunkSize + c.pos + c.visibleLen ≤ kMaxSupportedFileSize) :
    validateFileChunkWrite i id (c.endOff cx.chunkSize i) cx.chunkSize = .ok () ↔
      isValidChunkID id = true ∧ 0 < c.pos + min c.eofLen c.visibleLen := by
  obtain ⟨hlen, hin, -⟩ := validateRecord_ok_iff.mp hv
  have hin' : c.pos + c.visibleLen ≤ cx.chunkSize := hin
  have hend : c.endOff cx.chunkSize i = i * cx.chunkSize + c.pos + min c.eofLen c.visibleLen := rfl
  have hle : c.pos + min c.eofLen c.visibleLen ≤ cx.chunkSize := by omega
  rw [validateFileChunkWrite_ok_iff]
  constructor
  · rintro ⟨hid, -, -, hlt, -⟩
    exact ⟨hid, by omega⟩
  · rintro ⟨hid, hext⟩
    exact ⟨hid, by omega, by omega, by omega, by rw [hend, Nat.add_assoc]; omega⟩

/-- ChunkID を決めて record を書いた後の外部状態 -/
def recorded (ino : InodeID) (i : Nat) (c : FrozenSlice) (b : Backend) : Backend :=
  { withTarget ino i c b with
    sliceIndex := c.recordedIndex (c.target (publishView ino i b)) (withTarget ino i c b).sliceIndex }

theorem candidatePublished_of_file
    (h : FilePublished ino i (c.target (publishView ino i b)) (c.endOff cx.chunkSize i)
      b.redis redis) :
    CandidatePublished cx ino i c b { recorded ino i c b with redis := redis } where
  view := by
    have hat : attachedAt redis ino i = some (c.target (publishView ino i b)) := by
      rw [h.attachment, if_pos rfl]
    simp only [publishView, recorded, hat, withTarget_sliceIndex, withTarget_nextChunkID]
    rfl
  file := h
  objects := withTarget_objects ino i c b
  nextSliceID := withTarget_nextSliceID ino i c b

theorem publishAttempts_alone (attempts : Nat) (hc : sc.frozen[k]? = some c)
    (hprep : c.preparedId.isSome = true) (hv : validateRecord c.prepared cx.chunkSize = .ok ())
    (hfile : i * cx.chunkSize + c.pos + c.visibleLen ≤ kMaxSupportedFileSize) :
    Alone Answer.NoFault
      (publishAttempts cx ino i k c.prepared (c.endOff cx.chunkSize i) (attempts + 1))
      (PublishOutcome cx ino i k c sc b) (sc, b) := by
  refine .bind (.onBackend (.query ?_))
  cases hread : readFileChunkSnapshot cx.chunkSize b.redis ino i with
  | error e =>
    rintro ⟨⟨file, hsnap, -⟩, -⟩
    exact absurd ((readFileChunkSnapshot_ok_iff.mpr hsnap).symm.trans hread) (by simp)
  | ok file =>
    have hsnap := readFileChunkSnapshot_ok_iff.mp hread
    refine .bind (.bind (.getSession
      (.pure ?_)))
    simp only [next_ok, hc]
    refine .bind (publicationID_alone hsnap.attachment ?_ ?_)
    · intro sc₁ hsc₁
      cases hw : validateFileChunkWrite i (c.target (publishView ino i b))
          (c.endOff cx.chunkSize i) cx.chunkSize with
      | error e =>
        have hno : ¬ Publishable cx ino i c b := fun h => absurd
          ((validateWrite_iff hv hfile).mpr ⟨h.accepted.valid, h.present.extends_⟩) (by simp [hw])
        refine .bind (((keeps_recordCandidate _ _ _).weaken fun _ _ => trivial).mono ?_)
        rintro (e | u) ⟨sc₂, b₂⟩ -
        · exact hno
        · exact finalize_invalid hw fun _ _ => hno
      | ok u =>
        obtain ⟨hid, hext⟩ := (validateWrite_iff hv hfile).mp hw
        refine .bind (recordCandidate_alone hid hv ?_ ?_)
        · intro hrec sc₂ hsc₂
          rw [withTarget_sliceIndex, hsnap.attachment] at hrec
          have hacc : c.Accepted cx.chunkSize (publishView ino i b) := ⟨hid, hrec⟩
          have hredis : (recorded ino i c b).redis = b.redis := withTarget_redis ino i c b
          have hsnap₂ : SnapshotOf cx.chunkSize (recorded ino i c b).redis ino i file :=
            hredis ▸ hsnap
          cases hp : hasRestrictiveInodePolicy file.inode.attr with
          | true =>
            have hno : ¬ Publishable cx ino i c b := by
              rintro ⟨⟨file', hsnap', hp'⟩, -⟩
              rw [hsnap.unique hsnap', hp] at hp'
              cases hp'
            have hk : k < sc₂.frozen.length := by
              rw [hsc₂.length_eq, hsc₁.length_eq]
              exact (List.getElem?_eq_some_iff.mp hc).1
            refine (finalize_refused hsnap₂ hp (publishAttempts_refused attempts hk hsnap₂ hp)).mono ?_
            rintro _ _ ⟨e, rfl⟩
            exact hno
          | false =>
            refine .bind (.attempt (.onBackend
              (alone_transact_noFault_iff.mpr fun now => ?_)))
            have hid' : ∀ id', file.chunkId = some id' → id' = c.target (publishView ino i b) := by
              intro id' h
              have hat : attachedAt b.redis ino i = some id' := hsnap.attachment.symm.trans h
              simp [FrozenSlice.target, publishView, hat]
            have hsnap₃ : SnapshotOf { cx with now := now }.chunkSize (recorded ino i c b).redis
              ino i file := hsnap₂
            obtain ⟨redis, hcommit, hpub⟩ := hsnap₃.publishTxn_commit hw hp hid'
            rw [publishTxn, recorded] at hcommit
            rw [hredis] at hpub
            rw [hcommit]
            exact .pure ⟨⟨⟨file, hsnap, hp⟩, ⟨hprep, hv, hfile, hext⟩, hacc⟩, hsc₁.trans hsc₂,
              candidatePublished_of_file hpub⟩
        · intro hrec e s h
          rw [withTarget_sliceIndex, hsnap.attachment] at hrec
          exact hrec h.accepted.record
    · intro e s hinv h
      exact absurd h.accepted.valid (by simp [hinv])

end

/-- 失敗が起きず他の誰も動かなければ、候補は `Publishable` のときに限り公開される -/
theorem publishFrozen_alone (hc : sc.frozen[k]? = some c) (hvis : c.visibleLen ≠ 0) :
    Alone Answer.NoFault (publishFrozen cx ino i k) (PublishOutcome cx ino i k c sc b) (sc, b) := by
  refine .bind (.bind (.getSession
    (.pure ?_)))
  simp only [next_ok, hc, if_neg hvis]
  cases hsid : c.preparedId with
  | none => exact .throw fun h => absurd h.present.prepared (by simp [hsid])
  | some sid =>
    have hrec : c.record sid = c.prepared := by simp [FrozenSlice.prepared, hsid]
    simp only [hrec]
    refine .bind (.ofResult ?_)
    cases hv : validateRecord c.prepared cx.chunkSize with
    | error e => exact fun h => absurd h.present.record (by simp [hv])
    | ok u =>
      refine .bind (.ofResult ?_)
      cases hstart : calculateChunkStartOffset i cx.chunkSize with
      | error e =>
        intro h
        have hcs : 0 < cx.chunkSize := by
          obtain ⟨hlen, hin, -⟩ := validateRecord_ok_iff.mp hv
          omega
        have hfile := h.present.inFile
        have hok : calculateChunkStartOffset i cx.chunkSize = .ok (i * cx.chunkSize) :=
          calculateChunkStartOffset_ok_iff.mpr ⟨hcs, by omega, rfl⟩
        exact absurd (hok.symm.trans hstart) (by simp)
      | ok start =>
        obtain ⟨-, hmax, rfl⟩ := calculateChunkStartOffset_ok_iff.mp hstart
        have hpos : c.prepared.pos = c.pos := rfl
        have hlen : c.prepared.len = c.visibleLen := rfl
        refine .bind (.failIf ⟨fun hlt h => ?_, fun hfit => ?_⟩)
        · have hfile := h.present.inFile
          omega
        · exact publishAttempts_alone 7 hc (by simp [hsid]) hv (by omega)

end SwordFS.Chunk.Slice
