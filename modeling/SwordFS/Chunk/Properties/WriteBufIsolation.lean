import SwordFS.Chunk.Cow.WriteBuf

/-!
# COW の buffer の隔離

読めるのは書き込みと切り詰めをそのまま行った byte 列であり、`Put` に渡した写しは Flush の間変わらない。
-/

namespace SwordFS.Chunk.Cow

open Infra Metadata Function

/-! ## 一つの buffer -/

def copyOutOf (array : Bytes) (off : Int) (len tailroom : Nat) : Result Bytes :=
  if off < 0 then .error (.invalidArgument "CopyOut: negative offset")
  else if tailroom < (slice array off.toNat len).length then
    .error (.invalidArgument "CopyOut: output buffer too small")
  else .ok (slice array off.toNat len)

theorem writeBuf_length (buf : Bytes) (offset : Nat) (data : Bytes) :
    (writeBuf buf offset data).length = max buf.length (offset + data.length) := by
  rw [writeBuf, overwrite_length (by rw [padTo_length]; exact Nat.le_max_right ..), padTo_length]
  omega

namespace WriteBuf

variable {b b' : WriteBuf} {offset : Nat} {data : Bytes}

@[simp] theorem contents_length : b.contents.length = b.size := by
  rw [contents, List.length_take, Nat.min_eq_left b.bounded]

theorem contents_getD (i : Nat) :
    b.contents.getD i 0 = if i < b.size then b.memory.getD i 0 else 0 := by
  simp only [contents, List.getD_eq_getElem?_getD, List.getElem?_take]
  split <;> rfl

/-- 穴を埋めた後、書き込む位置より前は見える byte 列の通りで、その先は零 -/
theorem zeroHole_getD (hi : i < offset) : (b.zeroHole offset).getD i 0 = b.contents.getD i 0 := by
  have hb := b.bounded
  rw [contents_getD, zeroHole]
  split
  · rw [overwrite_getD hb, List.length_replicate]
    split
    · next h =>
      rw [if_neg (by omega), List.getD_eq_getElem?_getD, List.getElem?_replicate, if_pos (by omega),
        Option.getD_some]
    · next h => rw [if_pos (by omega)]
  · next h => rw [if_pos (by omega)]

theorem write_contents {offset : Int} (h : b.write offset data = .ok b') :
    b'.contents = writeBuf b.contents offset.toNat data ∧ b'.memory.length = b.memory.length := by
  unfold write at h
  split at h
  · cases h
  split at h
  · cases h
  next hcap =>
    cases h
    have hb := b.bounded
    have hz : (b.zeroHole offset.toNat).length = b.memory.length := zeroHole_length (by omega)
    have hpad : offset.toNat ≤ (padTo 0 offset.toNat b.contents).length := by
      rw [padTo_length]
      exact Nat.le_max_right ..
    refine ⟨ext_getD 0 ?_ fun i hi => ?_, copy_length (by omega)⟩
    · rw [contents_length, writeBuf_length, contents_length]
    · rw [contents_length] at hi
      rw [contents_getD, if_pos hi, writeBuf, overwrite_getD hpad, padTo_getD]
      dsimp only at hi ⊢
      rw [overwrite_getD (by omega)]
      split
      · rfl
      next hout =>
        by_cases hlt : i < offset.toNat
        · exact zeroHole_getD hlt
        · rw [zeroHole, if_neg (by omega), contents_getD, if_pos (by omega)]

theorem write_ok (h : offset + data.length ≤ b.memory.length) :
    ∃ b', b.write offset data = .ok b' := by
  unfold write
  rw [if_neg (by omega), dif_neg (by rw [Int.toNat_natCast]; omega)]
  exact ⟨_, rfl⟩

theorem truncate_contents (size : Nat) : (b.truncate size).contents = b.contents.take size := by
  unfold truncate contents
  split
  · next h => rw [List.take_take, Nat.min_eq_left (Nat.le_of_lt h)]
  · next h => rw [List.take_take, Nat.min_eq_right (by omega)]

@[simp] theorem truncate_memory (size : Nat) : (b.truncate size).memory = b.memory := by
  unfold truncate
  split <;> rfl

theorem copyOut_eq (off : Int) (len tailroom : Nat) :
    b.copyOut off len tailroom = copyOutOf b.contents off len tailroom := by
  have hlen : (slice b.contents off.toNat len).length = min len (b.size - off.toNat) := by
    rw [slice_length, contents_length]
  unfold copyOut copyOutOf
  split
  · rfl
  split
  · next h =>
    have hnil : slice b.contents off.toNat len = [] :=
      List.eq_nil_of_length_eq_zero (by omega)
    rw [hnil]
    exact (if_neg (Nat.not_lt_zero _)).symm
  · rw [hlen]
    dsimp only
    split
    · rfl
    · rw [slice, slice, contents, List.drop_take, List.take_take]

/-- buffer への呼び出し -/
inductive Op where
  | write (writeOffset : Int) (data : Bytes)
  | truncate (size : Nat)

def apply (b : WriteBuf) : Op → WriteBuf
  | .write writeOffset data =>
    match b.write writeOffset data with
    | .error _ => b
    | .ok b' => b'
  | .truncate size => b.truncate size

/-- 呼び出しが byte 列にすること。収まらない書き込みは何もしない -/
def Op.array (capacity : Nat) (array : Bytes) : Op → Bytes
  | .write writeOffset data =>
    if writeOffset < 0 ∨ capacity < writeOffset.toNat + data.length then array
    else writeBuf array writeOffset.toNat data
  | .truncate size => array.take size

theorem apply_contents (op : Op) :
    (b.apply op).contents = op.array b.memory.length b.contents ∧
      (b.apply op).memory.length = b.memory.length := by
  cases op with
  | truncate size => exact ⟨truncate_contents size, by rw [apply, truncate_memory]⟩
  | write writeOffset data =>
    unfold apply Op.array
    dsimp only
    cases hw : b.write writeOffset data with
    | error e =>
      refine ⟨(if_pos ?_).symm, rfl⟩
      by_contra hin
      rw [not_or] at hin
      obtain ⟨b', hb'⟩ := write_ok (Nat.le_of_not_lt hin.2)
      rw [Int.toNat_of_nonneg (by omega), hw] at hb'
      cases hb'
    | ok b' =>
      obtain ⟨hcontents, hlen⟩ := write_contents hw
      refine ⟨hcontents.trans (if_neg ?_).symm, hlen⟩
      unfold write at hw
      split at hw
      · cases hw
      split at hw
      · cases hw
      · omega

theorem foldl_contents (ops : List Op) :
    (ops.foldl apply b).contents = ops.foldl (Op.array b.memory.length) b.contents := by
  induction ops generalizing b with
  | nil => rfl
  | cons op ops ih =>
    obtain ⟨hcontents, hlen⟩ := apply_contents (b := b) op
    rw [List.foldl_cons, List.foldl_cons, ih, hcontents, hlen]

end WriteBuf

/-! ## session の buffer -/

/-- 見ている byte 列と、進行中の Flush が `Put` に渡した写しの、渡したときの内容 -/
structure BufferLog where
  array : Bytes
  handed : List (Buffers.Clone × Bytes)

namespace Buffers

variable {chunkSize : Nat} {s : Buffers} {g : BufferLog}

def Op.array (chunkSize : Nat) (s : Buffers) (array : Bytes) : Op → Bytes
  | .write offset data _ hydrated =>
    if chunkSize < offset + data.length ∨ s.state = .clean ∧ chunkSize < hydrated.length then array
    else writeBuf (if s.state = .clean then hydrated else array) offset data
  | .truncateLocal size => if s.state = .clean then array else array.take size
  | .beginFlush | .put | .endFlush _ => array

/-- `Put` に渡した写しの記録。Flush が終われば忘れる -/
def Op.handed (s : Buffers) (handed : List (Clone × Bytes)) : Op → List (Clone × Bytes)
  | .put => handed ++
      s.flushingWb.toList.map fun i => (⟨i, (s.heap i).size⟩, (s.heap i).contents)
  | .endFlush _ => []
  | .write .. | .truncateLocal _ | .beginFlush => handed

def run (chunkSize : Nat) (x : Buffers × BufferLog) (ops : List Op) : Buffers × BufferLog :=
  ops.foldl (fun x op => (x.1.step chunkSize op,
    ⟨op.array chunkSize x.1 x.2.array, op.handed x.1 x.2.handed⟩)) x

/-- 開いた直後の session。取り付け済みなら buffer を持たない -/
def opened (chunkSize : Nat) (m : Fresh) (attached : Bool) : Buffers where
  heap _ := WriteBuf.create (m.memory chunkSize)
  fresh := 1
  state := if attached then .clean else .dirty
  wb := if attached then none else some 0
  flushingWb := none

end Buffers

open Buffers

/-- 呼び出しの間で成り立つこと -/
structure BuffersInv (chunkSize : Nat) (s : Buffers) (g : BufferLog) : Prop where
  clean : s.state = .clean ↔ s.wb = none
  flushing : s.state = .flushing ↔ s.flushingWb ≠ none
  below : ∀ i, s.wb = some i ∨ s.flushingWb = some i → i < s.fresh
  capacity : ∀ i, s.wb = some i → chunkSize ≤ (s.heap i).memory.length
  current : ∀ i, s.wb = some i → (s.heap i).contents = g.array
  short : g.array.length ≤ chunkSize
  handed : ∀ h ∈ g.handed, s.flushingWb = some h.1.addr ∧ s.cloneBytes h.1 = h.2

namespace BuffersInv

variable {chunkSize : Nat} {s : Buffers} {g : BufferLog}

theorem opened (chunkSize : Nat) (m : Fresh) (attached : Bool) :
    BuffersInv chunkSize (opened chunkSize m attached) ⟨[], []⟩ := by
  constructor <;> cases attached <;> simp [Buffers.opened, WriteBuf.create, WriteBuf.contents]

theorem wb_of_not_clean (h : BuffersInv chunkSize s g) (hs : s.state ≠ .clean) :
    ∃ i, s.wb = some i := Option.ne_none_iff_exists'.mp fun hn => hs (h.clean.mpr hn)

theorem flushingWb_eq_none (h : BuffersInv chunkSize s g) (hs : s.state ≠ .flushing) :
    s.flushingWb = none := by
  by_contra hn
  exact hs (h.flushing.mpr hn)

/-- 確保したばかりの buffer は、どの写しとも領域を共有しない -/
theorem installed (h : BuffersInv chunkSize s g) (st : State)
    (hb : b.contents = data) (hcap : chunkSize ≤ b.memory.length) (hlen : data.length ≤ chunkSize)
    (hclean : st ≠ .clean) (hst : st = .flushing ↔ s.flushingWb ≠ none) :
    BuffersInv chunkSize { s with
      heap := update s.heap s.fresh b, fresh := s.fresh + 1, wb := some s.fresh, state := st }
      ⟨data, g.handed⟩ where
  clean := ⟨fun hc => absurd hc hclean, nofun⟩
  flushing := hst
  below i hi := by
    rcases hi with hi | hi
    · cases hi
      exact Nat.lt_succ_self _
    · exact Nat.lt_succ_of_lt (h.below i (.inr hi))
  capacity i hi := by
    cases hi
    dsimp only
    rw [update_self]
    exact hcap
  current i hi := by
    cases hi
    dsimp only
    rw [update_self]
    exact hb
  short := hlen
  handed p hp := by
    obtain ⟨haddr, hbytes⟩ := h.handed p hp
    refine ⟨haddr, ?_⟩
    dsimp only [cloneBytes]
    rw [update_of_ne (Nat.ne_of_lt (h.below _ (.inr haddr)))]
    exact hbytes

theorem install_ok (s : Buffers) (m : Fresh) {data : Bytes} (hlen : data.length ≤ chunkSize) :
    ∃ b, s.install (m.memory chunkSize) data = .ok { s with
        heap := update s.heap s.fresh b, fresh := s.fresh + 1, wb := some s.fresh } ∧
      b.contents = data ∧ chunkSize ≤ b.memory.length := by
  have hcap : 0 + data.length ≤ (WriteBuf.create (m.memory chunkSize)).memory.length := by
    rw [WriteBuf.create, Fresh.memory_length]
    omega
  obtain ⟨b, hb⟩ := WriteBuf.write_ok hcap
  obtain ⟨hcontents, hmem⟩ := WriteBuf.write_contents hb
  refine ⟨b, ?_, ?_, ?_⟩
  · rw [install, show (0 : Int) = ((0 : Nat) : Int) from rfl, hb]
    rfl
  · rw [hcontents]
    simp [WriteBuf.create, WriteBuf.contents, writeBuf, padTo, overwrite]
  · rw [hmem, WriteBuf.create, Fresh.memory_length]
    omega

section

variable (h : BuffersInv chunkSize s g)
include h

theorem detach_ok (m : Fresh) (hhyd : s.state = .clean → hydrated.length ≤ chunkSize) :
    ∃ s' i, s.detach chunkSize m hydrated = .ok s' ∧
      BuffersInv chunkSize s' ⟨if s.state = .clean then hydrated else g.array, g.handed⟩ ∧
      s'.wb = some i ∧ s'.flushingWb ≠ some i := by
  unfold detach
  cases hs : s.state with
  | clean =>
    obtain ⟨b, hinstall, hb, hcap⟩ := install_ok s m (hhyd hs)
    have hnone := h.flushingWb_eq_none (by simp [hs])
    refine ⟨_, s.fresh, ?_, h.installed .dirty hb hcap (hhyd hs) nofun ?_, rfl, ?_⟩
    · simp only [Result.failIf, if_neg (Nat.not_lt.mpr (hhyd hs)), hinstall]
      rfl
    · simp [hnone]
    · simp [hnone]
  | dirty =>
    obtain ⟨i, hi⟩ := h.wb_of_not_clean (by simp [hs])
    have hnone := h.flushingWb_eq_none (by simp [hs])
    exact ⟨s, i, rfl, h, hi, by simp [hnone]⟩
  | flushing =>
    obtain ⟨i, hi⟩ := h.wb_of_not_clean (by simp [hs])
    dsimp only
    split
    next hshared =>
      have hdata : s.wb.elim [] (fun i => (s.heap i).contents) = g.array := by
        rw [hi]
        exact h.current i hi
      rw [hdata]
      obtain ⟨b, hinstall, hb, hcap⟩ := install_ok s m h.short
      have hinv := h.installed s.state hb hcap h.short (by simp [hs]) h.flushing
      refine ⟨_, s.fresh, hinstall, hinv, rfl, fun hf => ?_⟩
      exact Nat.lt_irrefl _ (h.below _ (.inr hf))
    next hne => exact ⟨s, i, rfl, h, hi, fun hf => hne (hi.trans hf.symm)⟩

theorem writeTo (hi : s.wb = some i)
    (hne : s.flushingWb ≠ some i) (hlen : offset + data.length ≤ chunkSize) :
    BuffersInv chunkSize (s.writeTo offset data) ⟨writeBuf g.array offset data, g.handed⟩ := by
  obtain ⟨b, hb⟩ := WriteBuf.write_ok (Nat.le_trans hlen (h.capacity i hi))
  obtain ⟨hcontents, hmem⟩ := WriteBuf.write_contents hb
  rw [h.current i hi, Int.toNat_natCast] at hcontents
  have hwrite : s.writeTo offset data = { s with heap := update s.heap i b } := by
    simp only [Buffers.writeTo, hi, hb]
  have hself : ∀ j, s.wb = some j → update s.heap i b j = b := by
    intro j hj
    rw [Option.some.inj (hj.symm.trans hi), update_self]
  rw [hwrite]
  refine ⟨h.clean, h.flushing, h.below, fun j hj => ?_, fun j hj => ?_, ?_, fun p hp => ?_⟩
  · dsimp only
    rw [hself j hj, hmem]
    exact h.capacity i hi
  · dsimp only
    rw [hself j hj]
    exact hcontents
  · have hshort := h.short
    dsimp only
    rw [writeBuf_length]
    omega
  · obtain ⟨haddr, hbytes⟩ := h.handed p hp
    refine ⟨haddr, ?_⟩
    dsimp only [cloneBytes]
    have hdiff : p.1.addr ≠ i := by
      rintro rfl
      exact hne haddr
    rw [update_of_ne hdiff]
    exact hbytes

theorem truncateLocal (size : Nat) :
    BuffersInv chunkSize (s.step chunkSize (.truncateLocal size))
      ⟨(Op.truncateLocal size).array chunkSize s g.array, g.handed⟩ := by
  simp only [step, Op.array]
  split
  · exact h
  refine ⟨h.clean, h.flushing, h.below, fun i hi => ?_, fun i hi => ?_, ?_, fun p hp => ?_⟩
  · simp only [if_pos hi, WriteBuf.truncate_memory]
    exact h.capacity i hi
  · simp only [if_pos hi, WriteBuf.truncate_contents, h.current i hi]
  · exact Nat.le_trans (List.length_take_le' ..) h.short
  · -- 共有していても、領域の内容は変わらない
    refine ⟨(h.handed p hp).1, ?_⟩
    have hmem : ∀ i, (if s.wb = some i then (s.heap i).truncate size else s.heap i).memory =
        (s.heap i).memory := by
      intro i
      split
      · exact WriteBuf.truncate_memory size
      · rfl
    dsimp only [cloneBytes]
    rw [hmem]
    exact (h.handed p hp).2

theorem step (op : Op) :
    BuffersInv chunkSize (s.step chunkSize op)
      ⟨op.array chunkSize s g.array, op.handed s g.handed⟩ := by
  cases op with
  | write offset data m hydrated =>
    have hr : (chunkSize < offset ∨ chunkSize - offset < data.length) ↔
        chunkSize < offset + data.length := by omega
    simp only [Buffers.step, Op.array, Op.handed, validateRange, Result.failIf, hr]
    by_cases hrange : chunkSize < offset + data.length
    · simp only [hrange, if_true, true_or]
      exact h
    by_cases hbig : s.state = .clean ∧ chunkSize < hydrated.length
    · have hfail : s.detach chunkSize m hydrated = .error (.malformed
          "COWChunk::HydrateForWrite: published chunk exceeds configured chunk size") := by
        simp only [detach, hbig.1, Result.failIf, hbig.2, if_true]
        rfl
      simp only [hrange, if_false, hfail, hbig, and_self, or_true, if_true]
      exact h
    · obtain ⟨s', i, hd, hinv, hi, hne⟩ :=
        h.detach_ok m fun hc => Nat.le_of_not_lt fun hl => hbig ⟨hc, hl⟩
      simp only [hrange, if_false, hd, hbig, or_self]
      exact hinv.writeTo hi hne (Nat.le_of_not_lt hrange)
  | truncateLocal size => exact h.truncateLocal size
  | beginFlush =>
    simp only [Buffers.step, Op.array, Op.handed]
    split
    next hb =>
      have hwb : s.wb ≠ none := fun hn => by simp [h.clean.mpr hn] at hb
      have hnone := h.flushingWb_eq_none (by simp [hb.1])
      refine ⟨⟨(fun h => by cases h), fun hn => absurd hn hwb⟩, ⟨fun _ => hwb, fun _ => rfl⟩, fun i hi =>
        h.below i (.inl (hi.elim id id)), h.capacity, h.current, h.short, fun p hp => ?_⟩
      have haddr := (h.handed p hp).1
      rw [hnone] at haddr
      cases haddr
    next => exact h
  | put =>
    refine { h with handed := List.forall_mem_append.mpr ⟨h.handed, fun p hp => ?_⟩ }
    obtain ⟨i, hi, rfl⟩ := List.mem_map.mp hp
    exact ⟨Option.mem_toList.mp hi, rfl⟩
  | endFlush published =>
    simp only [Buffers.step, Op.array, Op.handed]
    split
    next => exact { h with handed := fun _ hp => by cases hp }
    next hfl =>
      have hwb : s.wb ≠ none := fun hn => by simp [h.clean.mpr hn] at hfl
      split
      · refine ⟨⟨fun _ => rfl, fun _ => rfl⟩, ⟨fun h => (by cases h), fun hn => absurd rfl hn⟩,
          fun i hi => by simp at hi, fun i hi => ?_, fun i hi => ?_, h.short, fun p hp => ?_⟩
        · cases hi
        · cases hi
        · cases hp
      · refine ⟨⟨fun h => (by cases h), fun hn => absurd hn hwb⟩, ⟨fun h => (by cases h), fun hn =>
          absurd rfl hn⟩, fun i hi => h.below i (hi.imp_right fun h => by cases h), h.capacity,
          h.current, h.short, fun p hp => ?_⟩
        cases hp

theorem run (ops : List Op) :
    BuffersInv chunkSize (run chunkSize (s, g) ops).1 (run chunkSize (s, g) ops).2 := by
  induction ops generalizing s g with
  | nil => exact h
  | cons op ops ih => exact ih (h.step op)

end

end BuffersInv

/--
buffer への呼び出しがどう続いても、`CopyOut` が返すのは、書き込みと切り詰めをそのまま行い、
穴を零で埋めた byte 列の一部である。session の書き込みが公開中に続いても同じであり、
`Put` に渡した写しから見える内容は、その Flush が終わるまで変わらない。
-/
theorem write_buffer_isolated (chunkSize : Nat) (m : Fresh) (attached : Bool) (ops : List Op) :
    (∀ memory (calls : List WriteBuf.Op) off len tailroom,
      (calls.foldl WriteBuf.apply (WriteBuf.create memory)).copyOut off len tailroom =
        copyOutOf (calls.foldl (WriteBuf.Op.array memory.length) []) off len tailroom) ∧
    (∀ i, (run chunkSize (opened chunkSize m attached, ⟨[], []⟩) ops).1.wb = some i →
      ∀ off len tailroom,
        ((run chunkSize (opened chunkSize m attached, ⟨[], []⟩) ops).1.heap i).copyOut off len
            tailroom =
          copyOutOf (run chunkSize (opened chunkSize m attached, ⟨[], []⟩) ops).2.array off len
            tailroom) ∧
    ∀ h ∈ (run chunkSize (opened chunkSize m attached, ⟨[], []⟩) ops).2.handed,
      (run chunkSize (opened chunkSize m attached, ⟨[], []⟩) ops).1.cloneBytes h.1 = h.2 := by
  have hinv := (BuffersInv.opened chunkSize m attached).run ops
  refine ⟨fun memory calls off len tailroom => ?_, fun i hi off len tailroom => ?_,
    fun h hh => (hinv.handed h hh).2⟩
  · rw [WriteBuf.copyOut_eq, WriteBuf.foldl_contents]
    rfl
  · rw [WriteBuf.copyOut_eq, hinv.current i hi]

end SwordFS.Chunk.Cow
