import SwordFS.Chunk.Properties.ResolveOverlay
import SwordFS.Chunk.Properties.SlicePublish
import SwordFS.Chunk.Properties.SliceRead
import SwordFS.Chunk.Properties.WindowGroups

/-!
# 公開済みの内容を読んでの併合

`ReadCommittedRange` が成功する条件と返す byte を、index と object と境界だけで述べる。
`PrepareWindowCandidates` は、その byte の上に待っている候補を重ねて window を作る。
邪魔されなければ、結果は公開済みの内容の関数 `coalesced` であり、重ねた内容を変えない。
-/

namespace SwordFS.Chunk.Slice

open List Infra Metadata

/-! ## 境界で切り詰めた record -/

section

variable {cs : Nat} {records : List SliceRecord}

/-- 保持した境界で切り詰めた、`id` の record -/
def clampedRecords (chunkSize : Nat) (boundaries : List BoundaryClamp) (id : ChunkID)
    (records : List SliceRecord) : List SliceRecord :=
  if boundaries.getLast?.bind (·.chunkId) = some id then
    ((sanitizeNewest chunkSize records.reverse boundaries.reverse chunkSize).toOption.getD []).reverse
  else records

/-- 最後の境界を捕えてから、`id` の record は減っていない -/
def Unshrunk (boundaries : List BoundaryClamp) (id : ChunkID) (records : List SliceRecord) : Prop :=
  ∀ last, boundaries.getLast? = some last → last.chunkId = some id →
    last.recordCount ≤ records.length

theorem sanitizeNewest_valid (bs : List BoundaryClamp) (vp : Nat)
    (hv : ∀ r ∈ newest, validateRecord r cs = .ok ()) :
    ∃ out, sanitizeNewest cs newest bs vp = .ok out ∧ ∀ r ∈ out, validateRecord r cs = .ok () := by
  induction newest generalizing bs vp with
  | nil => exact ⟨[], rfl, nofun⟩
  | cons r older ih =>
    obtain ⟨hr, hold⟩ := forall_mem_cons.mp hv
    obtain ⟨out, hout, hvalid⟩ := ih (takeBoundaries (older.length + 1) bs vp).2
      (takeBoundaries (older.length + 1) bs vp).1 hold
    simp only [sanitizeNewest, hr, hout, bind, Except.bind, pure, Except.pure]
    split
    · exact ⟨out, rfl, hvalid⟩
    · next hlt =>
      refine ⟨_, rfl, forall_mem_cons.mpr ⟨?_, hvalid⟩⟩
      obtain ⟨h1, h2, h3, h4⟩ := validateRecord_ok_iff.mp hr
      refine validateRecord_ok_iff.mpr ⟨by dsimp only; omega, by dsimp only; omega, h3, fun h0 => ?_⟩
      have := h4 h0
      dsimp only
      omega

/-- 正しい record から解決する区間は、切り詰めた record から解決したもの -/
theorem committedSpans_eq (boundaries : List BoundaryClamp) (id : ChunkID) (offset n : Nat)
    (hv : ∀ r ∈ records, validateRecord r cs = .ok ()) :
    (Unshrunk boundaries id records → committedSpans cs boundaries id records offset n =
      resolveRange (clampedRecords cs boundaries id records) cs offset n) ∧
    (¬ Unshrunk boundaries id records →
      ∃ e, committedSpans cs boundaries id records offset n = .error e) ∧
    ∀ r ∈ clampedRecords cs boundaries id records, validateRecord r cs = .ok () := by
  unfold committedSpans clampedRecords Unshrunk
  cases hl : boundaries.getLast? with
  | none => exact ⟨fun _ => rfl, fun h => absurd nofun h, hv⟩
  | some last =>
    obtain ⟨out, hout, hvalid⟩ := sanitizeNewest_valid boundaries.reverse cs
      fun r hr => hv r (mem_reverse.mp hr)
    simp only [Option.bind_some, hout, Except.toOption, Option.getD_some, Option.some.injEq,
      forall_eq']
    by_cases hid : last.chunkId = some id
    · simp only [hid, true_implies]
      refine ⟨fun h => ?_, fun h => ?_, fun r hr => hvalid r (mem_reverse.mp hr)⟩
      · rw [Result.failIf_ok_iff (u := ()) |>.mpr (Nat.not_lt.mpr h)]
        rfl
      · simp [Result.failIf, Nat.lt_of_not_le h, bind, Except.bind]
    · simp only [if_neg hid]
      exact ⟨fun _ => trivial, fun h => absurd (fun h' => absurd h' hid) h, hv⟩

end

/-! ## `ReadCommittedRange` -/

section

variable {cx : MetaContext} {ino : InodeID} {sc : SliceChunk} {b : Backend} {offset len : Nat}

/-- chunk のうち EOF より前の長さ -/
def committedEnd (cx : MetaContext) (ino : InodeID) (sc : SliceChunk) (b : Backend) : Nat :=
  sizeAtEof sc.index cx.chunkSize ((eofOf b.redis ino).getD 0)

/-- chunk の位置 `q` の公開済みの byte -/
def committedByte (cx : MetaContext) (ino : InodeID) (sc : SliceChunk) (b : Backend) (q : Nat) :
    UInt8 :=
  match attachedAt b.redis ino sc.index with
  | none => 0
  | some id =>
    if q < committedEnd cx ino sc b then
      resolveAt (sliceObjects b)
        (clampedRecords cx.chunkSize sc.boundaries id (b.sliceIndex id)) q
    else 0

/-- 取り付けられた `id` の範囲が読める：index は正しく、区間の指す object がある -/
structure IndexReadable (cx : MetaContext) (ino : InodeID) (sc : SliceChunk) (b : Backend)
    (offset len : Nat) (id : ChunkID) : Prop where
  start : sc.index * cx.chunkSize ≤ kMaxSupportedFileSize
  nonempty : b.sliceIndex id ≠ []
  valid : ∀ r ∈ b.sliceIndex id, validateRecord r cx.chunkSize = .ok ()
  unshrunk : offset < committedEnd cx ino sc b → Unshrunk sc.boundaries id (b.sliceIndex id)
  stored : ∀ spans, offset < committedEnd cx ino sc b →
    resolveRange (clampedRecords cx.chunkSize sc.boundaries id (b.sliceIndex id)) cx.chunkSize
      offset (min len (committedEnd cx ino sc b - offset)) = .ok spans →
    ∀ s ∈ spans, s.id ≠ 0 → Stored b s

/-- 公開済みの `[offset, offset + len)` が読める -/
structure Readable (cx : MetaContext) (ino : InodeID) (sc : SliceChunk) (b : Backend)
    (offset len : Nat) : Prop where
  inChunk : offset + len ≤ cx.chunkSize
  noError : sc.boundaryError = none
  file : ∃ file, SnapshotOf cx.chunkSize b.redis ino sc.index file
  index : ∀ id, attachedAt b.redis ino sc.index = some id → IndexReadable cx ino sc b offset len id

theorem fetchRange_error {span : ResolvedSlice} (offset : Nat) (short : String) (result : Bytes)
    (hlen : 0 < span.len) (hno : ¬ Stored b span) :
    ∃ e, Reads (fetchRange offset span span.pos (span.pos + span.len) short result) b
      (.error e) := by
  unfold fetchRange
  rw [if_neg (by omega), Nat.sub_self, Nat.add_zero, Nat.add_sub_cancel_left]
  have hget : Reads (get (.slice span.id) span.off span.len) b _ := reads_query _
  cases hobj : b.objects (.slice span.id) with
  | none =>
    rw [hobj] at hget
    exact ⟨_, hget.bind_error⟩
  | some bytes =>
    rw [hobj] at hget
    have hshort : (slice bytes span.off span.len).length ≠ span.len := by
      rw [slice_length]
      have hout : ¬ span.off + span.len ≤ bytes.length := fun h => hno ⟨bytes, hobj, h⟩
      omega
    have hfail : Reads (failIf ((slice bytes span.off span.len).length ≠ span.len)
        (.ioError short)) b (.error (.ioError short)) :=
      .failIf ⟨fun _ => ⟨rfl, rfl⟩, fun h => absurd hshort h⟩
    exact ⟨_, hget.bind hfail.bind_error⟩

/-- 区間の指す object が一つでも欠けていれば、取り寄せは失敗する -/
theorem fetchSpans_error (short : String) (hpos : ∀ s ∈ spans, 0 < s.len)
    (hin : ∀ s ∈ spans, offset ≤ s.pos ∧ s.pos + s.len ≤ offset + result.length)
    (hno : ¬ ∀ s ∈ spans, s.id ≠ 0 → Stored b s) :
    ∃ e, Reads (fetchSpans offset short [] spans result) b (.error e) := by
  induction spans generalizing result with
  | nil => exact absurd nofun hno
  | cons s spans ih =>
    obtain ⟨hs, hpos⟩ := forall_mem_cons.mp hpos
    obtain ⟨hfit, hin⟩ := forall_mem_cons.mp hin
    rw [forall_mem_cons, not_and] at hno
    unfold fetchSpans
    split
    · next h0 => exact ih hpos hin (hno fun h => absurd h0 h)
    · next h0 =>
      by_cases hst : Stored b s
      · obtain ⟨out, hread, hlen, -⟩ := fetchUncovered_reads short h0 hst hfit.1 [] (Nat.le_refl _)
          (Nat.le_add_right _ _) hfit.2
        obtain ⟨e, he⟩ := ih hpos (hlen.symm ▸ hin) (hno fun _ => hst)
        exact ⟨e, hread.bind he⟩
      · obtain ⟨e, he⟩ := fetchRange_error offset short result hs hst
        exact ⟨e, he.bind_error⟩

theorem readMappedRecords_alone {id : ChunkID} (hid : isValidChunkID id = true)
    (hok : b.sliceIndex id ≠ [] → (∀ r ∈ b.sliceIndex id, validateRecord r cx.chunkSize = .ok ()) →
      Q (.ok (b.sliceIndex id)) b)
    (herr : ∀ e, ¬ (b.sliceIndex id ≠ [] ∧
      ∀ r ∈ b.sliceIndex id, validateRecord r cx.chunkSize = .ok ()) → Q (.error e) b) :
    Alone Answer.NoFault (readMappedRecords cx id msg) Q b := by
  simp only [← validateRecords_ok_iff (u := ())] at hok herr
  refine .bind (.attempt (readRecords_alone hid ?_ ?_))
  · intro hne hv
    exact .bind ((reads_failIf hne).mono (.pure (hok hne hv)))
  · exact fun e h => .throw (herr _ h)

theorem range_map_eq {f : Nat → UInt8} {out : Bytes} (hlen : out.length = len)
    (h : ∀ i < len, out.getD i 0 = f (offset + i)) : out = (List.range' offset len).map f := by
  refine ext_getElem (by simp [hlen]) fun i hi hi' => ?_
  rw [getElem_map, getElem_range', Nat.one_mul, ← h i (hlen ▸ hi),
    getD_eq_getElem?_getD, getElem?_eq_getElem hi, Option.getD_some]

/-- `ReadCommittedRange` は、範囲が読めるときに限り成功し、公開済みの byte を返す -/
theorem readCommittedRange_alone (hu32 : cx.chunkSize ≤ kMaxU32) (hlen : 0 < len)
    (hok : Readable cx ino sc b offset len →
      Q (.ok ((List.range' offset len).map (committedByte cx ino sc b))) b)
    (herr : ∀ e, ¬ Readable cx ino sc b offset len → Q (.error e) b) :
    Alone Answer.NoFault (sc.readCommittedRange cx ino offset len) Q b := by
  refine .bind (.failIf ⟨fun hbad => herr _ fun h => ?_, fun hfit => ?_⟩)
  · have := h.inChunk
    omega
  refine .bind (.failIf ⟨fun hbig => by omega, fun _ => ?_⟩)
  simp only [next_ok]
  rw [if_neg (Nat.ne_of_gt hlen)]
  refine .bind (.ofResult ?_)
  cases hnoError : sc.boundaryError with
  | some e => exact herr _ fun h => by simp [h.noError] at hnoError
  | none =>
  refine .bind (.query ?_)
  cases hread : readFileChunkSnapshot cx.chunkSize b.redis ino sc.index with
  | error e =>
    refine herr _ fun ⟨_, _, ⟨file, hsnap⟩, _⟩ => ?_
    exact absurd ((readFileChunkSnapshot_ok_iff.mpr hsnap).symm.trans hread) (by simp)
  | ok file =>
    have hsnap := readFileChunkSnapshot_ok_iff.mp hread
    have heof : sizeAtEof sc.index cx.chunkSize file.inode.attr.size = committedEnd cx ino sc b := by
      simp [committedEnd, eofOf, hsnap.inode]
    have hblank : (∀ i < len, committedByte cx ino sc b (offset + i) = 0) →
        List.replicate len (0 : UInt8) =
          (List.range' offset len).map (committedByte cx ino sc b) := by
      intro h
      refine range_map_eq length_replicate fun i hi => ?_
      rw [h i hi, getD_eq_getElem?_getD, getElem?_replicate_of_lt hi, Option.getD_some]
    have hall : (∀ id, attachedAt b.redis ino sc.index = some id →
        IndexReadable cx ino sc b offset len id) → Readable cx ino sc b offset len :=
      fun h => ⟨by omega, hnoError, ⟨file, hsnap⟩, h⟩
    simp only [next_ok]
    cases hid : file.chunkId with
    | none =>
      have hatt : attachedAt b.redis ino sc.index = none := hsnap.attachment.symm.trans hid
      refine .pure ?_
      rw [hblank fun i _ => by simp [committedByte, hatt]]
      exact hok (hall fun id h => by simp [hatt] at h)
    | some id =>
      have hatt : attachedAt b.redis ino sc.index = some id := hsnap.attachment.symm.trans hid
      replace hall : IndexReadable cx ino sc b offset len id → Readable cx ino sc b offset len :=
        fun h => hall fun id' h' => by
          rw [hatt] at h'
          exact Option.some.inj h' ▸ h
      have hno : ¬ IndexReadable cx ino sc b offset len id → ¬ Readable cx ino sc b offset len :=
        fun h h' => h (h'.index id hatt)
      refine .bind (readMappedRecords_alone (hsnap.valid id hid) ?_ ?_)
      · intro hne hv
        obtain ⟨hspans, hshrunk, hvalid⟩ := committedSpans_eq sc.boundaries id offset
          (min len (committedEnd cx ino sc b - offset)) hv
        refine .bind (.ofResult ?_)
        cases hstart : calculateChunkStartOffset sc.index cx.chunkSize with
        | error e =>
          refine herr e (hno fun h => ?_)
          have := calculateChunkStartOffset_ok_iff.mpr ⟨hsnap.chunkSize, h.start, rfl⟩
          exact absurd (this.symm.trans hstart) (by simp)
        | ok start =>
        obtain ⟨-, hmax, -⟩ := calculateChunkStartOffset_ok_iff.mp hstart
        simp only [next_ok, heof]
        split
        · next hpast =>
          refine .pure ?_
          rw [hblank fun i _ => by simp only [committedByte, hatt]; exact if_neg (by omega)]
          exact hok (hall ⟨hmax, hne, hv, fun h => by omega, fun _ h => by omega⟩)
        · next hbefore =>
          refine .bind (.ofResult ?_)
          by_cases hun : Unshrunk sc.boundaries id (b.sliceIndex id)
          · have hend : offset + min len (committedEnd cx ino sc b - offset) ≤ cx.chunkSize := by
              omega
            obtain ⟨spans, hres, hfor, -⟩ :=
              resolveRange_spec (sliceObjects b) hsnap.chunkSize hend hvalid
            have hpos := (resolveRange_coalesced ⟨hsnap.chunkSize, hend, hvalid⟩ hres).2.2
            have hle := Nat.min_le_left len (committedEnd cx ino sc b - offset)
            rw [hspans hun, hres]
            by_cases hst : ∀ s ∈ spans, s.id ≠ 0 → Stored b s
            · obtain ⟨out, hout, hol, hov⟩ := hfor.fetch hle hpos hst []
                "SliceChunk::ReadCommittedRange: short object range"
              refine hout.mono ?_
              rw [range_map_eq (f := committedByte cx ino sc b) hol fun i hi => ?_]
              · refine hok (hall ⟨hmax, hne, hv, fun _ => hun, fun spans' _ h' => ?_⟩)
                obtain rfl := Except.ok.inj (hres.symm.trans h')
                exact hst
              · obtain ⟨hin, hzero⟩ := hov i (by rintro ⟨o, ho, -⟩; cases ho)
                simp only [committedByte, hatt]
                split
                · exact hin (by omega)
                · exact hzero (by omega)
            · obtain ⟨e, he⟩ := fetchSpans_error (b := b)
                "SliceChunk::ReadCommittedRange: short object range" hpos (hfor.fits hle hpos) hst
              exact he.mono (herr e (hno fun h => hst (h.stored spans (by omega) hres)))
          · obtain ⟨e, he⟩ := hshrunk hun
            rw [he]
            exact herr e (hno fun h => hun (h.unshrunk (by omega)))
      · exact fun e h => herr e (hno fun h' => h ⟨h'.nonempty, h'.valid⟩)

end

/-! ## 併合 -/

/-- window `g` の候補と、その入る位置。公開済みの内容 `view` の上に、待っている候補を重ねて作る -/
def mergedGroup (view : Nat → UInt8) (pending : List FrozenSlice) (g : GroupBuild) :
    Nat × FrozenSlice :=
  let (g', payload) := overlayPending pending.zipIdx g
    ((List.range' g.pos (g.recordEnd - g.pos)).map view)
  (g'.insertAfter, groupCandidate g' payload)

/-- 公開済みの内容 `view` の上で併合した候補の列 -/
def coalesced (view : Nat → UInt8) (pending : List FrozenSlice) : List FrozenSlice :=
  rebuildFrozen (windowSources pending) ((windowGroups pending).map (mergedGroup view pending))
    pending

section

variable {view : Nat → UInt8} {pending : List FrozenSlice} {d : FrozenSlice}

theorem windowGroups_of_no_sources (h : windowSources pending = []) : windowGroups pending = [] := by
  refine eq_nil_iff_forall_not_mem.mpr fun g hg => ?_
  obtain ⟨c, i, hc, hgr, hbase, -⟩ := (windowGroups_groupOf hg).first
  have hi := mem_windowSources.mpr
    ⟨c, mk_mem_zipIdx_iff_getElem?.mp hc, hgr, g, hg, hbase.symm⟩
  rw [h] at hi
  cases hi

theorem coalesced_of_no_sources (h : windowSources pending = []) :
    coalesced view pending = pending := by
  rw [coalesced, h, windowGroups_of_no_sources h, rebuildFrozen_eq]
  exact rebuildFrom_of_past nofun nofun

/-- 併合した列の候補は、元の候補か、まだ何も準備していない新しい候補 -/
theorem mem_coalesced (h : d ∈ coalesced view pending) :
    d ∈ pending ∨ d.preparedId = none ∧ d.recordedChunkId = none := by
  rw [coalesced, rebuildFrozen_eq] at h
  rcases mem_rebuildFrom h with ⟨i, hi⟩ | ⟨x, hx, rfl⟩
  · exact .inl (mem_of_getElem? (mk_mem_zipIdx_iff_getElem?.mp hi))
  · obtain ⟨g, -, rfl⟩ := mem_map.mp hx
    exact .inr ⟨rfl, rfl⟩

variable (view) (hstored : ∀ c ∈ pending, c.visibleLen ≤ c.payload.length)
include hstored

theorem merged_windowGroups : List.Forall₂ (Merged pending view fun _ => True)
    (windowGroups pending) ((windowGroups pending).map (mergedGroup view pending)) := by
  refine List.forall₂_map_right_iff.mpr (List.forall₂_same.mpr fun g hg => ?_)
  refine merged_overlayPending hg hstored (by simp) fun p hlo hhi => ?_
  have hget : (List.range' g.pos (g.recordEnd - g.pos))[p - g.pos]? = some p := by
    rw [getElem?_range' (by omega)]
    congr 1
    omega
  rw [getD_eq_getElem?_getD, getElem?_map, hget]
  rfl

/-- 併合した列を公開済みの内容に重ねると、元の列を重ねたものになる -/
theorem overlayAt_coalesced (p : Nat) :
    overlayAt (coalesced view pending) p (view p) = overlayAt pending p (view p) := by
  have h : overlayAt (rebuildFrozen (windowSources pending) _ (pending ++ [])) p (view p) =
      overlayAt (pending ++ []) p (view p) :=
    overlayAt_rebuildFrozen (merged_windowGroups view hstored) trivial
  rwa [append_nil] at h

theorem exists_coalesced (hc : c ∈ pending) :
    ∃ d ∈ coalesced view pending, c.acceptedEnd ≤ d.acceptedEnd ∧
      (c.visibleLen ≠ 0 → d.visibleLen ≠ 0) := by
  have h := exists_rebuildFrozen (merged_windowGroups view hstored) (mem_append_left [] hc)
  rwa [append_nil] at h

end

section

variable {cx : MetaContext} {ino : InodeID} {sc : SliceChunk} {b : Backend}

/-- 併合に要る公開済みの範囲が全て読める -/
def WindowsReadable (cx : MetaContext) (ino : InodeID) (sc : SliceChunk) (b : Backend) : Prop :=
  ∀ g ∈ windowGroups sc.frozen, Readable cx ino sc b g.pos (g.recordEnd - g.pos)

theorem buildGroups_alone (hu32 : cx.chunkSize ≤ kMaxU32) (hpos : ∀ g ∈ groups, g.pos < g.recordEnd)
    (hok : (∀ g ∈ groups, Readable cx ino sc b g.pos (g.recordEnd - g.pos)) →
      Q (.ok (groups.map (mergedGroup (committedByte cx ino sc b) pending))) b)
    (herr : ∀ e, ¬ (∀ g ∈ groups, Readable cx ino sc b g.pos (g.recordEnd - g.pos)) →
      Q (.error e) b) :
    Alone Answer.NoFault (buildGroups cx ino sc pending groups) Q b := by
  induction groups generalizing Q with
  | nil => exact .pure (hok nofun)
  | cons g gs ih =>
    obtain ⟨hg, hpos⟩ := forall_mem_cons.mp hpos
    simp only [forall_mem_cons] at hok herr
    refine .bind (readCommittedRange_alone hu32 (by omega) (fun hr => ?_) ?_)
    · refine .bind (ih hpos (fun hrs => ?_) ?_)
      · exact .pure (hok ⟨hr, hrs⟩)
      · exact fun e hrs => herr e fun h => hrs h.2
    · exact fun e hr => herr e fun h => hr h.1

/-- 邪魔されなければ、併合は要る範囲が全て読めるときに限り終わる -/
theorem prepareWindowCandidates_alone (hu32 : cx.chunkSize ≤ kMaxU32)
    (hok : WindowsReadable cx ino sc b →
      Q (.ok (coalesced (committedByte cx ino sc b) sc.frozen).length)
        ({ sc with frozen := coalesced (committedByte cx ino sc b) sc.frozen }, b))
    (herr : ∀ e, ¬ WindowsReadable cx ino sc b → Q (.error e) (sc, b)) :
    Alone Answer.NoFault (prepareWindowCandidates cx ino sc.frozen.length (attempts + 1)) Q
      (sc, b) := by
  refine .bind (.getSession ?_)
  simp only [next_ok]
  split
  · next hs =>
    rw [coalesced_of_no_sources hs] at hok
    refine .pure (hok fun g hg => ?_)
    rw [windowGroups_of_no_sources hs] at hg
    cases hg
  · refine .bind (.onBackend (buildGroups_alone hu32
      (fun g hg => (windowGroups_groupOf hg).nonempty) (fun hr => ?_) herr))
    refine .bind (.modifySession ?_)
    simp only [if_true, next_ok]
    exact .pure (hok hr)

end

end SwordFS.Chunk.Slice
