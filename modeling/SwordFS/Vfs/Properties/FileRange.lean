import SwordFS.Chunk.Cow.COWChunk
import SwordFS.Vfs.History
import SwordFS.Vfs.Properties.ChunkCache

/-!
# file の範囲の分割

`FileReadWriter::Write` と `Read` は、範囲を chunk ごとの部分に分けて session に渡す。
-/

namespace SwordFS.Vfs

open List Infra Metadata Chunk Function

/-! ## 分割の loop -/

/-- loop の一回が chunk に渡す部分。`remaining` はその時点の残りの長さ -/
structure FilePiece where
  cursor : Nat
  remaining : Nat
  position : ChunkPosition
  len : Nat

/--
`Write` と `Read` の loop が順に扱う部分。`Write` の `n`、`Read` の `window_cap` と `hole` は
同じ式である。
-/
def filePieces (chunkSize : Nat) : (fuel cursor remaining : Nat) → Result (List FilePiece)
  | 0, _, _ => .ok []
  | fuel + 1, cursor, remaining =>
    if remaining = 0 then .ok []
    else do
      let position ← calculateChunkPosition cursor chunkSize
      let n := min remaining (chunkSize - position.offsetInChunk)
      let rest ← filePieces chunkSize fuel (cursor + n) (remaining - n)
      return ⟨cursor, remaining, position, n⟩ :: rest

/-- 部分が `start` から隙間も重なりも無く並び、`stop` で終わる -/
def Consecutive : (start stop : Nat) → List FilePiece → Prop
  | start, stop, [] => start = stop
  | start, stop, p :: ps => p.cursor = start ∧ Consecutive (start + p.len) stop ps

/-- 範囲 `[off, stop)` の一部分が一つの chunk に収まり、その byte の位置が正しい -/
structure FilePiece.Exact (chunkSize off stop : Nat) (p : FilePiece) : Prop where
  nonempty : 0 < p.len
  byte : ∀ k < p.len, (p.cursor + k) / chunkSize = p.position.index ∧
    (p.cursor + k) % chunkSize = p.position.offsetInChunk + k
  position : calculateChunkPosition p.cursor chunkSize = .ok p.position
  size : p.len = min p.remaining (chunkSize - p.position.offsetInChunk)
  /-- 途中の引き算は負にならず、足し算と掛け算は `stop` を越えない -/
  start_le : off ≤ p.cursor
  remaining : p.cursor + p.remaining = stop
  product : p.position.index * chunkSize = p.position.startOffset
  startOffset_le : p.position.startOffset ≤ p.cursor
  room : p.position.offsetInChunk < chunkSize

section

variable {chunkSize off start stop : Nat} {p : FilePiece} {ps : List FilePiece}

theorem FilePiece.Exact.len_le (h : p.Exact chunkSize off stop) : p.len ≤ p.remaining := by
  rw [h.size]
  exact Nat.min_le_left ..

theorem Consecutive.start_le (h : Consecutive start stop ps) :
    start ≤ stop ∧ ∀ p ∈ ps, start ≤ p.cursor := by
  induction ps generalizing start with
  | nil => exact ⟨Nat.le_of_eq h, forall_mem_nil _⟩
  | cons p ps ih =>
    obtain ⟨hp, hrest⟩ := h
    obtain ⟨hle, hall⟩ := ih hrest
    exact ⟨by omega, forall_mem_cons.mpr ⟨by omega, fun q hq => by have := hall q hq; omega⟩⟩

theorem Consecutive.existsUnique (h : Consecutive start stop ps) (hlo : start ≤ k)
    (hhi : k < stop) : ∃! p, p ∈ ps ∧ p.cursor ≤ k ∧ k < p.cursor + p.len := by
  induction ps generalizing start with
  | nil =>
    have : start = stop := h
    omega
  | cons p ps ih =>
    obtain ⟨hp, hrest⟩ := h
    have hall := hrest.start_le.2
    by_cases hin : k < start + p.len
    · refine ⟨p, ⟨mem_cons_self, by omega, by omega⟩, ?_⟩
      rintro q ⟨hq, hqk⟩
      rcases mem_cons.mp hq with rfl | hq
      · rfl
      · have := hall q hq
        omega
    · obtain ⟨q, ⟨hq, hqk⟩, huniq⟩ := ih hrest (by omega)
      refine ⟨q, ⟨mem_cons_of_mem _ hq, hqk⟩, ?_⟩
      rintro r ⟨hr, hrk⟩
      rcases mem_cons.mp hr with rfl | hr
      · omega
      · exact huniq r ⟨hr, hrk⟩

theorem div_mod_add (h : c % chunkSize + k < chunkSize) :
    (c + k) / chunkSize = c / chunkSize ∧ (c + k) % chunkSize = c % chunkSize + k := by
  have hsplit : c + k = chunkSize * (c / chunkSize) + (c % chunkSize + k) := by
    have := Nat.div_add_mod c chunkSize
    omega
  rw [hsplit, Nat.mul_add_div (by omega), Nat.div_eq_of_lt h, Nat.mul_add_mod, Nat.mod_eq_of_lt h]
  exact ⟨rfl, rfl⟩

theorem calculateChunkPosition_eq (hcs : 0 < chunkSize) (q : Nat) :
    calculateChunkPosition q chunkSize =
      .ok ⟨q / chunkSize, q / chunkSize * chunkSize, q % chunkSize⟩ := by
  rw [calculateChunkPosition, if_neg (Nat.ne_of_gt hcs), Nat.mod_eq_sub_div_mul]

theorem filePieces_exact (hcs : 0 < chunkSize) (hoff : off ≤ cursor)
    (hstop : cursor + remaining = stop) (hfuel : remaining ≤ fuel) :
    ∃ ps, filePieces chunkSize fuel cursor remaining = .ok ps ∧ Consecutive cursor stop ps ∧
      ∀ p ∈ ps, p.Exact chunkSize off stop := by
  induction fuel generalizing cursor remaining with
  | zero => exact ⟨[], rfl, by show cursor = stop; omega, forall_mem_nil _⟩
  | succ fuel ih =>
    by_cases hzero : remaining = 0
    · exact ⟨[], if_pos hzero, by show cursor = stop; omega, forall_mem_nil _⟩
    have hmod := Nat.mod_lt cursor hcs
    have hpos := calculateChunkPosition_eq hcs cursor
    generalize hn : min remaining (chunkSize - cursor % chunkSize) = n
    have hnext : off ≤ cursor + n := by omega
    obtain ⟨ps, hps, hcons, hexact⟩ := ih hnext (by omega : cursor + n + (remaining - n) = stop)
      (by omega)
    have hbyte : ∀ k < n, (cursor + k) / chunkSize = cursor / chunkSize ∧
        (cursor + k) % chunkSize = cursor % chunkSize + k := fun k hk => div_mod_add (by omega)
    have hnpos : 0 < n := by omega
    refine ⟨⟨cursor, remaining, _, n⟩ :: ps, ?_, ⟨rfl, hcons⟩, forall_mem_cons.mpr ⟨⟨hnpos,
      hbyte, hpos, hn.symm, hoff, hstop, rfl, Nat.div_mul_le_self .., hmod⟩, hexact⟩⟩
    rw [filePieces, if_neg hzero, hpos]
    show (filePieces chunkSize fuel (cursor + min remaining (chunkSize - cursor % chunkSize))
      (remaining - min remaining (chunkSize - cursor % chunkSize)) >>= _) = _
    rw [hn, hps]
    rfl

end

/-! ## session に渡る部分 -/

section

variable {χ : Type} (M : Mechanism χ) (cx : MetaContext) {off start stop fuel : Nat}
  {ps : List FilePiece}

/-- 各部分を、位置の session に書く。buffer の中の位置は `cursor - off` -/
def writePieces (off : Nat) (bytes : Bytes) : List FilePiece → FileIo χ Unit
  | [] => return ()
  | p :: ps => do
    match ← getChunk M p.position.index true with
    | none => throw (.internal "FileReadWriter::Write: chunk lookup succeeded without a chunk")
    | some c =>
      onChunk p.position.index c
        (M.write p.position.offsetInChunk (slice bytes (p.cursor - off) p.len))
      writePieces off bytes ps

/-- 各部分の session を引く。session が無ければ穴 -/
def lookupPieces : List FilePiece → FileIo χ (List (ReadSegment χ))
  | [] => return []
  | p :: ps => do
    let c ← getChunk M p.position.index false
    let rest ← lookupPieces ps
    return ⟨c, p.position.offsetInChunk, p.len⟩ :: rest

theorem writeLoop_eq (hoff : off ≤ start) (hbytes : off + bytes.length = stop)
    (hcons : Consecutive start stop ps) (hps : ∀ p ∈ ps, p.Exact cx.chunkSize off stop)
    (hfuel : stop - start ≤ fuel) :
    writeLoop M cx fuel start (bytes.drop (start - off)) = writePieces M off bytes ps := by
  induction ps generalizing start fuel with
  | nil =>
    have hnil : bytes.drop (start - off) = [] := drop_eq_nil_of_le (by
      have : start = stop := hcons
      omega)
    rw [hnil]
    cases fuel <;> rfl
  | cons p ps ih =>
    obtain ⟨hexact, hrest⟩ := forall_mem_cons.mp hps
    obtain ⟨rfl, hcons⟩ := hcons
    have hpos := hexact.nonempty
    have hlen := hexact.len_le
    have hrem := hexact.remaining
    obtain ⟨fuel, rfl⟩ := Nat.exists_eq_succ_of_ne_zero (by omega : fuel ≠ 0)
    have hlength : (bytes.drop (p.cursor - off)).length = p.remaining := by
      rw [length_drop]
      omega
    have hne : ¬ (bytes.drop (p.cursor - off)).isEmpty := by
      rw [List.isEmpty_iff, ← length_eq_zero_iff]
      omega
    rw [writeLoop, if_neg hne, hexact.position, writePieces]
    show (getChunk M p.position.index true >>= _) = _
    congr 1
    funext c
    cases c with
    | none => rfl
    | some c =>
      dsimp only
      rw [hlength, ← hexact.size, drop_drop, ← Nat.sub_add_comm hoff,
        ih (by omega) hcons hrest (by omega), slice]

theorem readLookup_eq (hcons : Consecutive start stop ps)
    (hps : ∀ p ∈ ps, p.Exact cx.chunkSize off stop) (hfuel : stop - start ≤ fuel) :
    readLookup M cx fuel start (stop - start) = lookupPieces M ps := by
  induction ps generalizing start fuel with
  | nil =>
    have hzero : stop - start = 0 := by
      have : start = stop := hcons
      omega
    rw [hzero]
    cases fuel <;> rfl
  | cons p ps ih =>
    obtain ⟨hexact, hrest⟩ := forall_mem_cons.mp hps
    obtain ⟨rfl, hcons⟩ := hcons
    have hpos := hexact.nonempty
    have hlen := hexact.len_le
    have hrem : stop - p.cursor = p.remaining := by
      have := hexact.remaining
      omega
    obtain ⟨fuel, rfl⟩ := Nat.exists_eq_succ_of_ne_zero (by omega : fuel ≠ 0)
    rw [hrem, readLookup, if_neg (by omega), hexact.position, lookupPieces]
    show (getChunk M p.position.index false >>= _) = _
    congr 1
    funext c
    dsimp only
    rw [← hexact.size, ← hrem, Nat.sub_sub, ih hcons hrest (by omega)]

end

/-! ## 読みの結果 -/

/-- 範囲 `[off, off + n)` は、位置 `idx` の chunk に掛かる -/
def Touches (chunkSize off n idx : Nat) : Prop := ∃ q, off ≤ q ∧ q < off + n ∧ q / chunkSize = idx

/-- file の位置 `q` の byte。session の無い chunk は穴 -/
def fileByte {χ : Type} (byte : χ → Nat → UInt8) (session : Nat → Option χ)
    (chunkSize q : Nat) : UInt8 :=
  match session (q / chunkSize) with
  | some c => byte c (q % chunkSize)
  | none => 0

/-- 触れる位置の session。cache に無ければ `ChunkFactory::Open` が引く -/
structure Sessions {χ : Type} (M : Mechanism χ) (create : Bool) (Touched : Nat → Prop)
    (session : Nat → Option χ) (rw : FileReadWriter χ) (b : Backend) : Prop where
  cached : ∀ idx c, Touched idx → rw.chunks.lookup idx = some c → session idx = some c
  opened : ∀ idx, Touched idx → rw.chunks.lookup idx = none →
    Reads (M.openSession idx create) b (.ok (session idx))

section

variable {χ : Type} {M : Mechanism χ} {create : Bool} {Touched : Nat → Prop}
  {session : Nat → Option χ} {rw rw' : FileReadWriter χ} {b : Backend} {idx : Nat}

theorem Sessions.getChunk (h : Sessions M create Touched session rw b) (hidx : Touched idx) :
    Alone Answer.NoFault (getChunk M idx create)
      (fun r s => r = .ok (session idx) ∧ s.2 = b ∧ OnlyChunk idx rw s.1 ∧
        s.1.chunks.lookup idx = session idx) (rw, b) := by
  refine .bind (.getSession ?_)
  simp only [next_ok]
  cases hl : rw.chunks.lookup idx with
  | some c =>
    rw [h.cached idx c hidx hl]
    exact .pure ⟨rfl, rfl, .refl idx rw, hl⟩
  | none =>
    refine .bind (.onBackend ((h.opened idx hidx hl).mono ?_))
    cases hs : session idx with
    | none => exact .pure ⟨rfl, rfl, .refl idx rw, hl⟩
    | some c =>
      refine .modifySession ?_
      simp only [hl]
      exact ⟨trivial, trivial, ⟨rfl, fun j hj => AList.lookup_insert_ne hj⟩,
        AList.lookup_insert _⟩

/-- session を引いて cache に入れても、引ける session は変わらない -/
theorem Sessions.only (h : Sessions M create Touched session rw b) (ho : OnlyChunk idx rw rw')
    (hl : rw'.chunks.lookup idx = session idx) : Sessions M create Touched session rw' b where
  cached j c hj hc := by
    by_cases hji : j = idx
    · subst hji
      exact hl.symm.trans hc
    · exact h.cached j c hj ((ho.other j hji).symm.trans hc)
  opened j hj hc := by
    by_cases hji : j = idx
    · subst hji
      refine h.opened j hj (Option.eq_none_iff_forall_ne_some.mpr fun c hold => ?_)
      cases (hl.symm.trans hc).symm.trans (h.cached j c hj hold)
    · exact h.opened j hj ((ho.other j hji).symm.trans hc)

theorem Sessions.lookupPieces (h : Sessions M false Touched session rw b)
    (hps : ∀ p ∈ ps, Touched p.position.index) :
    Alone Answer.NoFault (lookupPieces M ps) (fun r s => r = .ok (ps.map fun p =>
      ⟨session p.position.index, p.position.offsetInChunk, p.len⟩) ∧ s.2 = b) (rw, b) := by
  induction ps generalizing rw with
  | nil => exact .pure ⟨rfl, rfl⟩
  | cons p ps ih =>
    obtain ⟨hp, hps⟩ := forall_mem_cons.mp hps
    refine .bind ((h.getChunk hp).mono ?_)
    rintro _ ⟨rw', _⟩ ⟨rfl, rfl, ho, hl⟩
    refine .bind ((ih (h.only ho hl) hps).mono ?_)
    rintro _ s ⟨rfl, rfl⟩
    exact .pure ⟨rfl, rfl⟩

theorem readSegments_reads {ps : List FilePiece}
    (h : ∀ p ∈ ps, Reads (readSegment M (seg p)) b (.ok (out p))) :
    Reads (readSegments M (ps.map seg)) b (.ok (ps.flatMap out)) := by
  induction ps with
  | nil => exact reads_pure _
  | cons p ps ih =>
    obtain ⟨hp, hps⟩ := forall_mem_cons.mp h
    exact hp.bind ((ih hps).bind (reads_pure _))

/-- 邪魔されない読みが見る大きさ -/
def VisibleAs (ino : InodeID) (rw : FileReadWriter χ) (b : Backend) (visible : Nat) : Prop :=
  ∃ a, visible = rw.visibleSize a ∧ (rw.authoritativeSize = some a ∨
    rw.authoritativeSize = none ∧ ∃ inode, ((lookupInode ino).commit b.redis).1 = .ok inode ∧
      a = inode.attr.size)

theorem getVisibleSize_alone (h : VisibleAs ino rw b visible) :
    Alone Answer.NoFault (getVisibleSize ino)
      (fun r s => r = .ok visible ∧ s.2 = b ∧ s.1.chunks = rw.chunks) (rw, b) := by
  refine .bind (.getSession ?_)
  obtain ⟨a, rfl, ha | ⟨ha, inode, hinode, rfl⟩⟩ := h
  · simp only [next_ok, ha]
    exact .pure ⟨rfl, rfl, rfl⟩
  · simp only [next_ok, ha]
    refine .bind (.onBackend (.query ?_))
    rw [hinode]
    refine .modifySession ?_
    simp [ha]

end

section

variable {χ : Type} {M : Mechanism χ} {cx : MetaContext} {rw : FileReadWriter χ} {b : Backend}
  {byte : χ → Nat → UInt8} {off start stop : Nat} {ps : List FilePiece}

theorem FilePiece.Exact.touches {chunkSize : Nat} {p : FilePiece}
    (h : p.Exact chunkSize off (off + n)) : Touches chunkSize off n p.position.index := by
  have hpos := h.nonempty
  have hlen := h.len_le
  have hrem := h.remaining
  exact ⟨p.cursor, h.start_le, by omega, (h.byte 0 hpos).1⟩

theorem FilePiece.Exact.index_eq {chunkSize : Nat} {p : FilePiece} (h : p.Exact chunkSize off stop)
    (hin : p.cursor ≤ q ∧ q < p.cursor + p.len) : q / chunkSize = p.position.index := by
  have hindex := (h.byte (q - p.cursor) (by omega)).1
  rwa [Nat.add_sub_cancel' hin.1] at hindex

theorem FilePiece.Exact.fits {chunkSize : Nat} {p : FilePiece} (h : p.Exact chunkSize off stop) :
    p.position.offsetInChunk + p.len ≤ chunkSize := by
  have hsize := h.size
  have hroom := h.room
  omega

theorem Consecutive.flatMap_range' (f : Nat → UInt8) (h : Consecutive start stop ps) :
    ps.flatMap (fun p => (List.range' p.cursor p.len).map f) =
      (List.range' start (stop - start)).map f := by
  induction ps generalizing start with
  | nil =>
    obtain rfl : start = stop := h
    simp
  | cons p ps ih =>
    obtain ⟨rfl, hrest⟩ := h
    have hle := hrest.start_le.1
    rw [flatMap_cons, ih hrest, ← map_append, range'_append_1]
    congr 2
    omega

/--
邪魔されない `Read` は、`[off, off + size)` を EOF で切った範囲の byte を順に返す。`byte` は session の読みが
返す byte で、session の無い chunk は零になる
-/
def ReadExact (M : Mechanism χ) (cx : MetaContext) (off size : Nat) : Prop :=
  ∀ ino (rw : FileReadWriter χ) b visible session (byte : χ → Nat → UInt8),
    rw.sizeCommitFailedClosed = false → VisibleAs ino rw b visible →
    visible ≤ kMaxSupportedFileSize →
    Sessions M false (Touches cx.chunkSize off (min size (visible - off))) session rw b →
    (∀ idx c, Touches cx.chunkSize off (min size (visible - off)) idx → session idx = some c →
      ∀ o n, o + n ≤ cx.chunkSize →
        Reads (M.read c o n) b (.ok ((List.range' o n).map (byte c)))) →
    Alone Answer.NoFault (Vfs.read M cx ino size off) (fun r s =>
      r = .ok ((List.range' off (min size (visible - off))).map
        (fileByte byte session cx.chunkSize)) ∧ s.2 = b) (rw, b)

theorem read_alone {size : Nat} (hcs : 0 < cx.chunkSize) : ReadExact M cx off size := by
  intro ino rw b visible session byte hsafe hvisible hmax hopen hread
  have hneg : ¬ (off : Int) < 0 := by omega
  simp only [read, checkSizeCommitSafety, alone_bind_iff, alone_getSession_iff exists_noFault,
    next_ok, alone_failIf_iff, hsafe, Bool.false_eq_true, false_implies, not_false_eq_true,
    true_implies, true_and, hneg, Int.toNat_natCast]
  split
  · next hzero => exact .pure ⟨by simp [hzero], rfl⟩
  refine .bind ((getVisibleSize_alone hvisible).mono ?_)
  rintro _ ⟨rw', b'⟩ ⟨rfl, hb, hchunks⟩
  obtain rfl : b = b' := hb.symm
  have hfit : ¬ kMaxSupportedFileSize < visible := Nat.not_lt.mpr hmax
  refine .bind (.failIf ⟨fun h => absurd h hfit, fun _ => ?_⟩)
  simp only [next_ok]
  split
  · next heof => exact .pure ⟨by simp [Nat.sub_eq_zero_of_le heof], rfl⟩
  generalize hn : min size (visible - off) = n at hopen hread ⊢
  obtain ⟨ps, -, hcons, hexact⟩ := filePieces_exact hcs (Nat.le_refl off) rfl (Nat.le_refl n)
  have hlookup : readLookup M cx n off (off + n - off) = lookupPieces M ps :=
    readLookup_eq M cx hcons hexact (Nat.le_of_eq (Nat.add_sub_cancel_left ..))
  rw [Nat.add_sub_cancel_left] at hlookup
  have hopen' : Sessions M false (Touches cx.chunkSize off n) session rw' b :=
    ⟨hchunks ▸ hopen.cached, hchunks ▸ hopen.opened⟩
  have htouch : ∀ p ∈ ps, Touches cx.chunkSize off n p.position.index :=
    fun p hp => (hexact p hp).touches
  rw [hlookup]
  refine .bind ((hopen'.lookupPieces htouch).mono ?_)
  rintro _ ⟨rw₂, b₂⟩ ⟨rfl, hb₂⟩
  obtain rfl : b = b₂ := hb₂.symm
  have hsegs : ∀ p ∈ ps, Reads (readSegment M
      ⟨session p.position.index, p.position.offsetInChunk, p.len⟩) b
      (.ok ((List.range' p.cursor p.len).map (fileByte byte session cx.chunkSize))) := by
    intro p hp
    have h := hexact p hp
    have hfit := h.fits
    cases hs : session p.position.index with
    | some c =>
      have hbytes : (List.range' p.position.offsetInChunk p.len).map (byte c) =
          (List.range' p.cursor p.len).map (fileByte byte session cx.chunkSize) := by
        rw [range'_eq_map_range, range'_eq_map_range, map_map, map_map]
        refine map_congr_left fun k hk => ?_
        obtain ⟨hdiv, hmod⟩ := h.byte k (mem_range.mp hk)
        simp [fileByte, hdiv, hmod, hs]
      exact hbytes ▸ hread _ c (htouch p hp) hs _ _ hfit
    | none =>
      have hbytes : List.replicate p.len 0 =
          (List.range' p.cursor p.len).map (fileByte byte session cx.chunkSize) := by
        rw [range'_eq_map_range, map_map]
        refine (eq_replicate_iff.mpr ⟨by simp, fun x hx => ?_⟩).symm
        obtain ⟨k, hk, rfl⟩ := mem_map.mp hx
        simp [fileByte, (h.byte k (mem_range.mp hk)).1, hs]
      exact hbytes ▸ reads_pure _
  refine .onBackend ((readSegments_reads hsegs).mono ⟨?_, rfl⟩)
  rw [hcons.flatMap_range', Nat.add_sub_cancel_left]

/-! ## 書きの結果 -/

/-- `c` の位置 `o` からを `bs` に変えたのが `c'` -/
def Written (byte : χ → Nat → UInt8) (c : χ) (o : Nat) (bs : Bytes) (c' : χ) : Prop :=
  ∀ i, byte c' i = if o ≤ i ∧ i < o + bs.length then bs.getD (i - o) 0 else byte c i

/-- 邪魔されない session の書き込みは成功し、`Written` の通りに変える -/
def WritesAt (M : Mechanism χ) (byte : χ → Nat → UInt8) (b : Backend) (c : χ) (o : Nat)
    (bs : Bytes) : Prop :=
  Alone Answer.NoFault (M.write o bs)
    (fun r s => r = .ok () ∧ s.2 = b ∧ Written byte c o bs s.1) (c, b)

theorem FilePiece.Exact.cursor_eq {chunkSize : Nat} {p : FilePiece}
    (h : p.Exact chunkSize off stop) :
    p.cursor = p.position.index * chunkSize + p.position.offsetInChunk := by
  obtain ⟨hdiv, hmod⟩ := h.byte 0 h.nonempty
  have hsum := Nat.div_add_mod' (p.cursor + 0) chunkSize
  rw [hdiv, hmod] at hsum
  exact hsum.symm

theorem Consecutive.pairwise {chunkSize : Nat} (h : Consecutive start stop ps)
    (hps : ∀ p ∈ ps, p.Exact chunkSize off stop) :
    ps.Pairwise (·.position.index < ·.position.index) := by
  induction ps generalizing start with
  | nil => exact .nil
  | cons p ps ih =>
    obtain ⟨hp, hps⟩ := forall_mem_cons.mp hps
    obtain ⟨rfl, hrest⟩ := h
    refine pairwise_cons.mpr ⟨fun q hq => ?_, ih hrest hps⟩
    have hq' := hps q hq
    have hlo := hrest.start_le.2 q hq
    have hsize := hp.size
    have hrem := hp.remaining
    have hqrem := hq'.remaining
    have hqlen := hq'.len_le
    have hqpos := hq'.nonempty
    have hcursor := hp.cursor_eq
    -- `p` の後にまだ部分があるので、`p` は chunk の末尾まで続く
    have hend : (p.position.index + 1) * chunkSize ≤ q.cursor := by
      rw [Nat.add_mul, Nat.one_mul]
      omega
    rw [← (hq'.byte 0 hq'.nonempty).1]
    exact (Nat.le_div_iff_mul_le (by have := hp.room; omega)).mpr (hend.trans (Nat.le_add_right _ 0))

theorem writePieces_alone
    (hopen : Sessions M true (fun idx => ∃ p ∈ ps, p.position.index = idx) (some ∘ session) rw b)
    (hwrite : ∀ p ∈ ps, WritesAt M byte b (session p.position.index) p.position.offsetInChunk
      (slice bytes (p.cursor - off) p.len))
    (hps : ps.Pairwise (·.position.index < ·.position.index)) :
    Alone Answer.NoFault (writePieces M off bytes ps) (fun r s => r = .ok () ∧ s.2 = b ∧
      s.1.liveSize = rw.liveSize ∧
      (∀ j, (∀ p ∈ ps, p.position.index ≠ j) → s.1.chunks.lookup j = rw.chunks.lookup j) ∧
      ∀ p ∈ ps, ∃ c, s.1.chunks.lookup p.position.index = some c ∧
        Written byte (session p.position.index) p.position.offsetInChunk
          (slice bytes (p.cursor - off) p.len) c) (rw, b) := by
  induction ps generalizing rw with
  | nil => exact .pure ⟨rfl, rfl, rfl, fun _ _ => rfl, forall_mem_nil _⟩
  | cons p ps ih =>
    obtain ⟨hp, hwrite⟩ := forall_mem_cons.mp hwrite
    obtain ⟨hlt, hps⟩ := pairwise_cons.mp hps
    refine .bind ((hopen.getChunk ⟨p, mem_cons_self, rfl⟩).mono ?_)
    rintro _ ⟨rw₁, b₁⟩ ⟨rfl, hb₁, ho₁, hl₁⟩
    obtain rfl : b = b₁ := hb₁.symm
    refine .bind (alone_onChunk hl₁ (Alone.mono hp ?_))
    rintro _ ⟨c, b₂⟩ ⟨rfl, hb₂, hc⟩ rw₂ ho₂ hl₂
    obtain rfl : b = b₂ := hb₂.symm
    have hother : ∀ j, j ≠ p.position.index → rw₂.chunks.lookup j = rw.chunks.lookup j :=
      fun j hj => (ho₂.other j hj).trans (ho₁.other j hj)
    have hne : ∀ q ∈ ps, q.position.index ≠ p.position.index := fun q hq => (hlt q hq).ne'
    have hopen₂ : Sessions M true (fun idx => ∃ q ∈ ps, q.position.index = idx)
        (some ∘ session) rw₂ b := by
      refine ⟨?_, ?_⟩
      · rintro _ c ⟨q, hq, rfl⟩ hlook
        exact hopen.cached _ c ⟨q, mem_cons_of_mem _ hq, rfl⟩
          ((hother _ (hne q hq)).symm.trans hlook)
      · rintro _ ⟨q, hq, rfl⟩ hlook
        exact hopen.opened _ ⟨q, mem_cons_of_mem _ hq, rfl⟩
          ((hother _ (hne q hq)).symm.trans hlook)
    refine (ih hopen₂ hwrite hps).mono ?_
    rintro _ s ⟨rfl, hb, hrest, hkeep, hpieces⟩
    refine ⟨rfl, hb, ?_, fun j hj => ?_, forall_mem_cons.mpr ⟨⟨c, ?_, hc⟩, hpieces⟩⟩
    · exact hrest.trans (ho₂.liveSize.trans ho₁.liveSize)
    · obtain ⟨hpj, hj⟩ := forall_mem_cons.mp hj
      exact (hkeep j hj).trans (hother j (Ne.symm hpj))
    · exact (hkeep _ hne).trans hl₂

/-- 掛かる chunk の中では、範囲に入る位置と、その chunk の部分に入る位置とは同じ -/
theorem Consecutive.mem_piece (h : Consecutive off stop ps)
    (hps : ∀ p ∈ ps, p.Exact chunkSize off stop) (hp : p ∈ ps)
    (hq : q / chunkSize = p.position.index) :
    off ≤ q ∧ q < stop ↔ p.cursor ≤ q ∧ q < p.cursor + p.len := by
  constructor
  · rintro ⟨hlo, hhi⟩
    obtain ⟨p', ⟨hp', hin⟩, -⟩ := h.existsUnique hlo hhi
    have hindex := (hps p' hp').index_eq hin
    have hnodup : (ps.map (·.position.index)).Nodup :=
      pairwise_map.mpr ((h.pairwise hps).imp fun hlt => hlt.ne)
    obtain rfl := inj_on_of_nodup_map hnodup hp' hp (hindex.symm.trans hq)
    exact hin
  · have hexact := hps p hp
    have hlen := hexact.len_le
    have hrem := hexact.remaining
    have hoff := hexact.start_le
    omega

/--
邪魔されない `Write` は成功し、掛かる chunk の byte は範囲の中だけが buffer の byte になり、他の chunk と
外部状態は変わらない
-/
def WriteExact (M : Mechanism χ) (cx : MetaContext) (off : Nat) (bytes : Bytes) : Prop :=
  ∀ (rw : FileReadWriter χ) b (session : Nat → χ) (byte : χ → Nat → UInt8) (flags : OpenFlags),
    rw.sizeCommitFailedClosed = false → rw.inodeFlags.immutable = false →
    (rw.inodeFlags.appendOnly = true → flags.append = true) →
    Sessions M true (Touches cx.chunkSize off bytes.length) (some ∘ session) rw b →
    (∀ idx, Touches cx.chunkSize off bytes.length idx → ∀ o bs, o + bs.length ≤ cx.chunkSize →
      WritesAt M byte b (session idx) o bs) →
    Alone Answer.NoFault (Vfs.write M cx bytes off flags) (fun r s => r = .ok () ∧ s.2 = b ∧
      (∀ idx, ¬ Touches cx.chunkSize off bytes.length idx →
        s.1.chunks.lookup idx = rw.chunks.lookup idx) ∧
      (∀ q, Touches cx.chunkSize off bytes.length (q / cx.chunkSize) →
        fileByte byte (s.1.chunks.lookup ·) cx.chunkSize q =
          if off ≤ q ∧ q < off + bytes.length then bytes.getD (q - off) 0
          else fileByte byte (some ∘ session) cx.chunkSize q) ∧
      (bytes ≠ [] → s.1.liveSize = some (max (rw.liveSize.getD 0) (off + bytes.length)))) (rw, b)

theorem write_alone {bytes : Bytes} (hcs : 0 < cx.chunkSize)
    (hrange : calculateFileRangeEnd off bytes.length = .ok (off + bytes.length)) :
    WriteExact M cx off bytes := by
  intro rw b session byte flags hsafe himmutable happend hopen hwrite
  have hpolicy : ¬ (rw.inodeFlags.appendOnly = true ∧ (!flags.append) = true) := by
    rintro ⟨ha, hf⟩
    simp [happend ha] at hf
  obtain ⟨ps, -, hcons, hexact⟩ :=
    filePieces_exact hcs (Nat.le_refl off) rfl (Nat.le_refl bytes.length)
  have hloop := writeLoop_eq M cx (Nat.le_refl off) rfl hcons hexact
    (Nat.le_of_eq (Nat.add_sub_cancel_left ..))
  rw [Nat.sub_self, drop_zero] at hloop
  have htouch : ∀ p ∈ ps, Touches cx.chunkSize off bytes.length p.position.index :=
    fun p hp => (hexact p hp).touches
  have hpieces : ∀ idx, Touches cx.chunkSize off bytes.length idx →
      ∃ p ∈ ps, p.position.index = idx := by
    rintro _ ⟨q, hlo, hhi, rfl⟩
    obtain ⟨p, ⟨hp, hin⟩, -⟩ := hcons.existsUnique hlo hhi
    exact ⟨p, hp, ((hexact p hp).index_eq hin).symm⟩
  have hslice : ∀ p ∈ ps, (slice bytes (p.cursor - off) p.len).length = p.len := by
    intro p hp
    have hlen := (hexact p hp).len_le
    have hrem := (hexact p hp).remaining
    have hoff := (hexact p hp).start_le
    rw [slice_length]
    omega
  have hsessions : Sessions M true (fun idx => ∃ p ∈ ps, p.position.index = idx)
      (some ∘ session) rw b :=
    ⟨fun idx c ⟨p, hp, he⟩ => hopen.cached idx c (he ▸ htouch p hp),
      fun idx ⟨p, hp, he⟩ => hopen.opened idx (he ▸ htouch p hp)⟩
  have hwrites : ∀ p ∈ ps, WritesAt M byte b (session p.position.index)
      p.position.offsetInChunk (slice bytes (p.cursor - off) p.len) := by
    intro p hp
    refine hwrite _ (htouch p hp) _ _ ?_
    rw [hslice p hp]
    exact (hexact p hp).fits
  have hall := writePieces_alone hsessions hwrites (hcons.pairwise hexact)
  simp only [write, checkSizeCommitSafety, alone_bind_iff, alone_getSession_iff exists_noFault,
    next_ok, alone_failIf_iff, hsafe, himmutable, Bool.false_eq_true, false_implies,
    not_false_eq_true, true_implies, true_and, hpolicy, Int.toNat_natCast, alone_ofResult_iff,
    hrange, hloop]
  refine hall.mono ?_
  rintro _ s ⟨rfl, rfl, hlive, hkeep, hwritten⟩
  have hspec : (∀ idx, ¬ Touches cx.chunkSize off bytes.length idx →
        s.1.chunks.lookup idx = rw.chunks.lookup idx) ∧
      ∀ q, Touches cx.chunkSize off bytes.length (q / cx.chunkSize) →
        fileByte byte (s.1.chunks.lookup ·) cx.chunkSize q =
          if off ≤ q ∧ q < off + bytes.length then bytes.getD (q - off) 0
          else fileByte byte (some ∘ session) cx.chunkSize q := by
    refine ⟨fun idx hno => hkeep idx fun p hp he => hno (he ▸ htouch p hp), fun q hq => ?_⟩
    obtain ⟨p, hp, hindex⟩ := hpieces _ hq
    obtain ⟨c, hlook, hc⟩ := hwritten p hp
    have hcursor := (hexact p hp).cursor_eq
    have hsum := Nat.div_add_mod' q cx.chunkSize
    rw [fileByte, fileByte, ← hindex, hlook]
    simp only [comp_apply]
    rw [hc, hslice p hp]
    rw [← hindex] at hsum
    by_cases hin : p.cursor ≤ q ∧ q < p.cursor + p.len
    · rw [if_pos ((hcons.mem_piece hexact hp hindex.symm).mpr hin), if_pos (by omega), slice_getD,
        if_pos (by omega)]
      congr 1
      have := (hexact p hp).start_le
      omega
    · rw [if_neg fun h => hin ((hcons.mem_piece hexact hp hindex.symm).mp h), if_neg (by omega)]
  simp only [next_ok]
  split
  · next hnil => exact .pure ⟨rfl, rfl, hspec.1, hspec.2, fun h => absurd hnil h⟩
  · refine .modifySession ⟨rfl, rfl, hspec.1, hspec.2, fun _ => ?_⟩
    rw [hlive]

end

/-! ## 受け付けた範囲 -/

/-- 位置 `q` で、位置の計算と、先頭の計算と、EOF の配置が食い違わない -/
structure PositionAgrees (chunkSize q : Nat) : Prop where
  position : calculateChunkPosition q chunkSize =
    .ok ⟨q / chunkSize, q / chunkSize * chunkSize, q % chunkSize⟩
  startOffset : calculateChunkStartOffset (q / chunkSize) chunkSize =
    .ok (q / chunkSize * chunkSize)
  sum : q / chunkSize * chunkSize + q % chunkSize = q
  layout : ∃ l, planChunkSizeLayout q chunkSize = .ok l ∧
    (∀ b, l.boundary = some b ↔ q % chunkSize ≠ 0 ∧ b = ⟨q / chunkSize, q % chunkSize⟩) ∧
    ∀ i, l.shouldDetach i = true ↔ q ≤ i * chunkSize

theorem positionAgrees (hcs : 0 < chunkSize)
    (hq : q ≤ kMaxSupportedFileSize) : PositionAgrees chunkSize q where
  position := calculateChunkPosition_eq hcs q
  startOffset := calculateChunkStartOffset_ok_iff.mpr
    ⟨hcs, (Nat.div_mul_le_self ..).trans hq, rfl⟩
  sum := Nat.div_add_mod' ..
  layout := ⟨_, planChunkSizeLayout_ok_iff.mpr ⟨hcs, hq, rfl⟩, fun _ => boundary_eq_some_iff,
    shouldDetach_iff hcs⟩

theorem FilePiece.Exact.validate {chunkSize off stop : Nat} {p : FilePiece}
    (h : p.Exact chunkSize off stop) (hstop : stop ≤ kMaxSupportedFileSize) {id : ChunkID}
    (hid : isValidChunkID id = true) :
    validateFileChunkWrite p.position.index id (p.cursor + p.len) chunkSize = .ok () := by
  have hpos := h.nonempty
  have hlen := h.len_le
  have hsize := h.size
  have hroom := h.room
  have hrem := h.remaining
  have hcursor := h.cursor_eq
  rw [validateFileChunkWrite_ok_iff]
  exact ⟨hid, by omega, by omega, by omega, by omega⟩

/--
`CalculateFileRangeEnd` が受け付けた範囲では、`Write` と `Read` が session に渡す部分は範囲を
ちょうど一度覆い、途中の値は負にも `2 ^ 63 - 1` より大きくもならない。`Read` の返す byte 列と `Write` の後の
byte は、位置 `off + k` と buffer の `k` 番目が対応する。どの位置でも補助関数は食い違わない。
chunk の大きさが 0 なら、何も渡さずに失敗する。
-/
theorem file_range_split_exact {χ : Type} (M : Mechanism χ) (cx : MetaContext) (chunkSize : Nat)
    (offT : Int64) (len stop : Nat) (hrange : calculateFileRangeEnd offT.toInt len = .ok stop) :
    ∃ off : Nat, (off : Int) = offT.toInt ∧ off ≤ kMaxSupportedFileSize ∧ stop = off + len ∧
      stop ≤ kMaxSupportedFileSize ∧
      (∀ n ≤ len, calculateFileRangeEnd offT.toInt n = .ok (off + n)) ∧
      (chunkSize = 0 → 0 < len → filePieces chunkSize len off len =
        .error (.invalidArgument "invalid file offset to chunk mapping")) ∧
      (0 < chunkSize → ∃ ps, filePieces chunkSize len off len = .ok ps ∧
        Consecutive off stop ps ∧
        (∀ k, off ≤ k → k < stop → ∃! p, p ∈ ps ∧ p.cursor ≤ k ∧ k < p.cursor + p.len) ∧
        (∀ p ∈ ps, p.Exact chunkSize off stop ∧ ∀ id, isValidChunkID id = true →
          validateFileChunkWrite p.position.index id (p.cursor + p.len) chunkSize = .ok ()) ∧
        (∀ bytes : Bytes, bytes.length = len →
          writeLoop M { cx with chunkSize } len off bytes = writePieces M off bytes ps ∧
            WriteExact M { cx with chunkSize } off bytes) ∧
        readLookup M { cx with chunkSize } len off len = lookupPieces M ps ∧
        ReadExact M { cx with chunkSize } off len) ∧
      (0 < chunkSize → ∀ q ≤ kMaxSupportedFileSize, PositionAgrees chunkSize q) := by
  have hmax : offT.toInt < 2 ^ 63 := offT.toInt_lt
  have hkmax : kMaxSupportedFileSize = 2 ^ 63 - 1 := rfl
  have haccept : ∀ {n e}, calculateFileRangeEnd offT.toInt n = .ok e ↔ 0 ≤ offT.toInt ∧
      offT.toInt.toNat + n ≤ kMaxSupportedFileSize ∧ e = offT.toInt.toNat + n := by
    intro n e
    unfold calculateFileRangeEnd
    split
    · exact ⟨nofun, fun h => by omega⟩
    split
    · exact ⟨nofun, fun h => by omega⟩
    · rw [Except.ok.injEq]
      constructor
      · rintro rfl
        exact ⟨by omega, by omega, rfl⟩
      · exact fun h => h.2.2.symm
  obtain ⟨hpos, hend, rfl⟩ := haccept.mp hrange
  generalize hoff : offT.toInt.toNat = off at hend ⊢
  have hint : (off : Int) = offT.toInt := by omega
  have hall : ∀ n ≤ len, calculateFileRangeEnd offT.toInt n = .ok (off + n) := by
    intro n hn
    rw [haccept, hoff]
    exact ⟨hpos, by omega, rfl⟩
  refine ⟨off, hint, by omega, rfl, hend, hall, ?_, fun hcs => ?_,
    fun hcs q hq => positionAgrees hcs hq⟩
  · rintro rfl hlen
    obtain ⟨n, rfl⟩ := Nat.exists_eq_succ_of_ne_zero (Nat.ne_of_gt hlen)
    rfl
  · obtain ⟨ps, hps, hcons, hexact⟩ := filePieces_exact hcs (Nat.le_refl off) rfl (Nat.le_refl len)
    refine ⟨ps, hps, hcons, fun k => hcons.existsUnique, fun p hp => ⟨hexact p hp, fun id hid =>
      (hexact p hp).validate hend hid⟩, fun bytes hbytes => ⟨?_, ?_⟩, ?_, read_alone hcs⟩
    · have heq := writeLoop_eq M { cx with chunkSize } (Nat.le_refl off)
        (congrArg (off + ·) hbytes) hcons hexact (Nat.le_of_eq (Nat.add_sub_cancel_left ..))
      rwa [Nat.sub_self, drop_zero] at heq
    · exact write_alone hcs (by rw [hint]; exact hall _ hbytes.le)
    · have heq := readLookup_eq M { cx with chunkSize } hcons hexact
        (Nat.le_of_eq (Nat.add_sub_cancel_left ..))
      rwa [Nat.add_sub_cancel_left] at heq

/-! ## COW の手元の session での例 -/

section

variable {cx : MetaContext} {ino : InodeID} {b : Backend} {c : Cow.COWChunk} {o : Nat}
  {create : Bool}

/-- まだ公開していない session の読みが返す byte -/
def localByte (c : Cow.COWChunk) (i : Nat) : UInt8 := (c.wb.getD []).getD i 0

theorem validateRange_ok (h : o + n ≤ cx.chunkSize) :
    Cow.validateRange o n cx.chunkSize op = .ok () := by
  have hno : ¬ (cx.chunkSize < o ∨ cx.chunkSize - o < n) := by omega
  simp [Cow.validateRange, Result.failIf, hno]

theorem cow_read_local (hc : c.state ≠ .clean) (h : o + n ≤ cx.chunkSize) :
    Reads (Cow.COWChunk.read cx c o n) b (.ok ((List.range' o n).map (localByte c))) := by
  rw [Cow.COWChunk.read, validateRange_ok h]
  refine (reads_ofResult _).bind ?_
  have heq : Cow.readLocal (c.wb.getD []) o n = (List.range' o n).map (localByte c) := by
    refine ext_getD 0 (by simp [Cow.readLocal]) fun i hi => ?_
    have hin : i < n := by simpa [Cow.readLocal] using hi
    rw [Cow.readLocal, padTo_getD, slice_getD, if_pos hin]
    simp [hin, localByte]
  by_cases hn : n = 0
  · simp only [hn, if_true]
    exact reads_pure _
  · simp only [hn, if_false, hc, ne_eq, not_false_eq_true, if_true, heq]
    exact reads_pure _

theorem cow_write_local (hc : c.state ≠ .clean) (h : o + bs.length ≤ cx.chunkSize) :
    WritesAt (Cow.mechanism cx ino fuel) localByte b c o bs := by
  refine .bind (.ofResult ?_)
  rw [validateRange_ok h]
  refine .bind (.getSession ?_)
  simp only [next_ok, if_neg hc]
  refine .modifySession ?_
  refine ⟨rfl, rfl, fun i => ?_⟩
  simp only [localByte, Option.getD_some, Cow.writeBuf]
  rw [overwrite_getD (by simp), padTo_getD]

theorem cow_open_unmapped (hcs : cx.chunkSize ≠ 0)
    (hfile : readFileChunkSnapshot cx.chunkSize b.redis ino idx = .ok file)
    (hnone : file.chunkId = none) : Reads (Cow.openSession cx ino idx create) b
      (.ok (if create then some { index := idx, wb := some [] } else none)) := by
  refine (reads_failIf hcs).bind (Reads.bind (a := file) (hfile ▸ reads_query _) ?_)
  simp only [hnone]
  cases create <;> exact reads_pure _

end

/-- 4 byte の chunk 0 と 2 に手元の byte があり、間は穴の、大きさ 10 の file -/
def holedFile : FileReadWriter Cow.COWChunk where
  chunks := AList.insert 0 { index := 0, wb := some [1, 2, 3, 4] }
    (AList.singleton 2 { index := 2, wb := some [9] })
  authoritativeSize := some 10

theorem holedFile_dirty (h : holedFile.chunks.lookup idx = some c) : c.state ≠ .clean := by
  by_cases h0 : idx = 0
  · subst h0
    cases h
    decide
  · rw [holedFile, AList.lookup_insert_ne h0] at h
    obtain ⟨rfl, rfl⟩ : idx = 2 ∧ c = { index := 2, wb := some [9] } := by
      simpa using AList.mem_lookup_iff.mp h
    decide

theorem holedFile_opened (idx : Nat) (create : Bool) :
    Reads (Cow.openSession ⟨4, .cow, 0⟩ 2 idx create) (createdVolume 2)
      (.ok (if create then some { index := idx, wb := some [] } else none)) :=
  cow_open_unmapped (by decide) rfl rfl

/-- chunk の途中から始まる 10 byte の読みと書き -/
theorem file_range_split_exact_unaligned :
    let cx : MetaContext := ⟨4, .cow, 0⟩
    let M := Cow.mechanism cx 2 8
    calculateFileRangeEnd (3 : Int64).toInt 10 = .ok 13 ∧
      (∃ ps, filePieces 4 10 3 10 = .ok ps ∧ Consecutive 3 13 ps) ∧
      (Prog.exec (Vfs.read M cx 2 10 (3 : Nat)) noFaults (holedFile, createdVolume 2)).1 =
        .ok [4, 0, 0, 0, 0, 9, 0] ∧
      fileByte localByte ((Prog.exec (Vfs.write M cx
        [20, 21, 22, 23, 24, 25, 26, 27, 28, 29] (3 : Nat) {}) noFaults
        (holedFile, createdVolume 2)).2.1.chunks.lookup ·) 4 11 = 28 := by
  intro cx M
  have hrange : calculateFileRangeEnd (3 : Int64).toInt 10 = .ok 13 := rfl
  obtain ⟨off, hoff, -, -, -, -, -, hsplit, -⟩ := file_range_split_exact M cx 4 3 10 13 hrange
  obtain rfl : off = 3 := Int.ofNat.inj (hoff.trans rfl)
  obtain ⟨ps, hps, hcons, -, -, hwrite, -, hread⟩ := hsplit (by decide)
  have hans : ∀ n, (noFaults n).Within Answer.NoFault := fun _ _ => rfl
  refine ⟨hrange, ⟨ps, hps, hcons⟩, ?_, ?_⟩
  · have h := hread 2 holedFile (createdVolume 2) 10 (holedFile.chunks.lookup ·) localByte rfl
      ⟨10, rfl, .inl rfl⟩ (by decide)
      ⟨fun _ _ _ hc => hc, fun idx _ hnone => hnone ▸ holedFile_opened idx false⟩
      fun _ _ _ hc _ _ hfit => cow_read_local (holedFile_dirty hc) hfit
    exact (h.exec hans).1.trans (by decide)
  · have h := (hwrite [20, 21, 22, 23, 24, 25, 26, 27, 28, 29] rfl).2 holedFile (createdVolume 2)
      (fun idx => (holedFile.chunks.lookup idx).getD { index := idx, wb := some [] }) localByte {}
      rfl rfl (by decide)
      ⟨fun idx c _ hc => by simp [hc], fun idx _ hnone => by
        rw [Function.comp, hnone]
        exact holedFile_opened idx true⟩ fun idx _ o bs hfit => cow_write_local (by
          cases hc : holedFile.chunks.lookup idx with
          | none => simp
          | some c => exact holedFile_dirty hc) hfit
    exact (h.exec hans).2.2.2.1 11 ⟨11, by decide⟩

end SwordFS.Vfs
