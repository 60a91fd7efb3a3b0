import SwordFS.Fuse.LockRetryScheduler
import SwordFS.Metadata.Properties.LockRanges

/-!
# 三つの判定の一致

lock の衝突は三箇所で別々に判定される。`SetPosix` と `GetPosix` は半開区間で、調整役の `Eligible` は
`Inspect` が返す始まりと長さの組で調べる。長さ 0 は無限を表すので、二つの表し方の間の変換が一致の要である。
-/

namespace SwordFS.Fuse

open List SwordFS.Infra SwordFS.Metadata SwordFS.Metadata.Lock Txn

theorem any_congr_mem {α : Type} {l : List α} {p q : α → Bool} (h : ∀ a ∈ l, p a = q a) :
    l.any p = l.any q := by
  rw [Bool.eq_iff_iff, any_eq_true, any_eq_true]
  exact exists_congr fun a => and_congr_right fun ha => by rw [h a ha]

/-! ## 範囲の二つの表し方 -/

theorem endOfRange_request {range : PosixRange} (h : validateRange range = .ok request) :
    range.start.toNat = request.start ∧ (endOfRange range).toNat = request.stop ∧
      range.type = request.type := by
  simp only [validateRange, Result.bind_ok_iff, Result.failIf_ok_iff, Result.pure_ok_iff,
    exists_const] at h
  obtain ⟨hfit, -, -, rfl⟩ := h
  refine ⟨rfl, ?_, rfl⟩
  have hmax : uint64Max = 18446744073709551615 := rfl
  have hstart := range.start.toNat_lt
  by_cases hz : range.length = 0
  · rw [endOfRange, if_pos hz, if_pos (by rw [hz]; rfl)]
    rfl
  · have hne : range.length.toNat ≠ 0 := fun hzero => hz (UInt64.toNat_inj.mp hzero)
    have hle : ¬ uint64Max - range.start.toNat < range.length.toNat := fun hlt => hfit ⟨hne, hlt⟩
    rw [endOfRange, if_neg hz, if_neg hne, UInt64.toNat_add, Nat.mod_eq_of_lt]
    omega

theorem endOfRange_toRange {r : Interval} (hlt : r.start < r.stop) (hle : r.stop ≤ uint64Max) :
    r.toRange.start.toNat = r.start ∧ (endOfRange r.toRange).toNat = r.stop := by
  have hmax : uint64Max = 18446744073709551615 := rfl
  have hstart : (UInt64.ofNat r.start).toNat = r.start := by
    rw [UInt64.toNat_ofNat', Nat.mod_eq_of_lt]
    omega
  refine ⟨hstart, ?_⟩
  show (endOfRange ⟨UInt64.ofNat r.start, r.length, r.type, Int32.ofInt r.pid⟩).toNat = r.stop
  unfold endOfRange SwordFS.Metadata.Lock.Interval.length
  dsimp only
  by_cases hend : r.stop = uint64Max
  · rw [if_pos hend, if_pos rfl, hend]
    rfl
  · -- 無限でない範囲の長さは正である
    have hlength : (UInt64.ofNat (r.stop - r.start)).toNat = r.stop - r.start := by
      rw [UInt64.toNat_ofNat', Nat.mod_eq_of_lt]
      omega
    have hne : UInt64.ofNat (r.stop - r.start) ≠ 0 := by
      intro hz
      rw [hz] at hlength
      have hzero : (0 : UInt64).toNat = 0 := rfl
      omega
    rw [if_neg hend, if_neg hne, UInt64.toNat_add, hstart, hlength, Nat.mod_eq_of_lt]
    · omega
    · omega

theorem rangeConflicts_toRange {range : PosixRange}
    (h : validateRange range = .ok request) (hlt : r.start < r.stop) (hle : r.stop ≤ uint64Max) :
    rangeConflicts range r.toRange = posixConflict request r := by
  obtain ⟨hstart, hstop, htype⟩ := endOfRange_request h
  obtain ⟨hstart', hstop'⟩ := endOfRange_toRange hlt hle
  have hleft : decide (range.start < endOfRange r.toRange) = decide (request.start < r.stop) :=
    decide_eq_decide.mpr (by rw [UInt64.lt_iff_toNat_lt, hstart, hstop'])
  have hright : decide (r.toRange.start < endOfRange range) = decide (r.start < request.stop) :=
    decide_eq_decide.mpr (by rw [UInt64.lt_iff_toNat_lt, hstart', hstop])
  rw [rangeConflicts, posixConflict, overlaps, hleft, hright, htype]
  rfl

/-! ## 保存された状態 -/

/-- 正準な record を持つ、正しく保存された lock の状態。期限の切れた owner が混じってよい -/
structure WellStored (s : LockStore) (flock : Bool) (ino : InodeID) : Prop where
  bounded : (s (.lock flock ino)).entries.length ≤ Lock.kMaxHolders
  owners : ∀ x ∈ entriesOf (s (.lock flock ino)), (parseOwner x.1).isSome = true
  posix : flock = false → ∀ x ∈ entriesOf (s (.lock flock ino)),
    ∃ rs, x.2 = .posix rs ∧ rs ≠ [] ∧ CanonicalRanges rs ∧ WithinBudget rs
  flocked : flock = true → ∀ x ∈ entriesOf (s (.lock flock ino)),
    x.2 = .flock .shared ∨ x.2 = .flock .exclusive
  leased : ∀ generation, s (.ownerLease generation) ≠ some .persistent

/-- 要求する owner の lease がまだ残っている -/
def LiveOwner (s : LockStore) (remaining : Nat → Nat) (generation : Nat) : Prop :=
  s (.ownerLease generation) = some .expiring ∧ 0 < remaining generation

section Read

variable {s : LockStore} {flock : Bool} {ino : InodeID} {remaining : Nat → Nat} {generation : Nat}

theorem eval_pttlBatch (gs : List Nat) : (pttlBatch remaining gs).eval s []
    = .ok (gs.map fun g => (g, pttl remaining g (s (.ownerLease g))), []) := by
  induction gs with
  | nil => rfl
  | cons g gs ih =>
    refine eval_bind_ok.mpr ⟨_, _, getLease_ok.mpr ⟨rfl, rfl, rfl⟩, ?_⟩
    exact eval_bind_ok.mpr ⟨_, _, ih, rfl⟩

theorem parseOwners_total (h : ∀ x ∈ entries, (parseOwner x.1).isSome = true) :
    ∃ out, parseOwners entries = .ok out ∧ ∀ x ∈ out, ∃ y ∈ entries, y.2 = x.2.2 := by
  induction entries with
  | nil => exact ⟨[], rfl, nofun⟩
  | cons x entries ih =>
    obtain ⟨⟨g, k⟩, hx⟩ := Option.isSome_iff_exists.mp (h x mem_cons_self)
    obtain ⟨out, hout, hmem⟩ := ih fun y hy => h y (mem_cons_of_mem _ hy)
    refine ⟨(g, k, x.2) :: out, ?_, ?_⟩
    · rcases x with ⟨f, data⟩
      rw [parseOwners]
      simp only [hx, hout]
      rfl
    · refine forall_mem_cons.mpr ⟨⟨x, mem_cons_self, rfl⟩, fun y hy => ?_⟩
      obtain ⟨z, hz, heq⟩ := hmem y hy
      exact ⟨z, mem_cons_of_mem _ hz, heq⟩

theorem WellStored.decode (h : WellStored s flock ino)
    (hx : x ∈ entriesOf (s (.lock flock ino))) (g k : Nat) :
    ∃ holder, Lock.decode flock x.2 { generation := g, kernelOwner := k } = .ok holder := by
  cases flock with
  | false =>
    obtain ⟨rs, hrs, hne, hcanon, hb⟩ := h.posix rfl x hx
    rw [hrs, decode_eq_decodeText hcanon hne hb rfl, decodeText_encode hcanon hne hb rfl]
    exact ⟨_, rfl⟩
  | true =>
    rcases h.flocked rfl x hx with hs | hs <;> rw [hs] <;> exact ⟨_, rfl⟩

theorem liveHolders_total (hdecode : ∀ x ∈ cands, ∀ g k, ∃ holder,
      Lock.decode flock x.2.2 { generation := g, kernelOwner := k } = .ok holder)
    (httl : ∀ x ∈ cands, ttlOf ttls x.1 ≠ -1) :
    ∃ r, liveHolders flock ttls cands = .ok r := by
  induction cands with
  | nil => exact ⟨_, rfl⟩
  | cons x cands ih =>
    obtain ⟨⟨holders, stale⟩, hrest⟩ := ih (fun y hy => hdecode y (mem_cons_of_mem _ hy))
      fun y hy => httl y (mem_cons_of_mem _ hy)
    rcases x with ⟨g, k, data⟩
    have hne := httl _ mem_cons_self
    obtain ⟨holder, hholder⟩ := hdecode _ mem_cons_self g k
    dsimp only at hne hholder
    by_cases hlive : 0 ≤ ttlOf ttls g
    · refine ⟨(holder :: holders, stale), ?_⟩
      simp only [liveHolders, Result.bind_ok_iff, Result.failIf_ok_iff, exists_const]
      refine ⟨hne, ?_⟩
      rw [if_pos hlive]
      simp only [Result.bind_ok_iff, Result.pure_ok_iff]
      exact ⟨holder, hholder, _, hrest, rfl⟩
    · refine ⟨(holders, true), ?_⟩
      simp only [liveHolders, Result.bind_ok_iff, Result.failIf_ok_iff, exists_const]
      refine ⟨hne, ?_⟩
      rw [if_neg hlive]
      simp only [Result.bind_ok_iff, Result.pure_ok_iff]
      exact ⟨_, hrest, rfl⟩

theorem readHolders_total (h : WellStored s flock ino) (hlive : LiveOwner s remaining generation) :
    ∃ snapshot, (readHolders flock ino generation remaining).eval s [] = .ok (snapshot, []) := by
  obtain ⟨cands, hparse, hmem⟩ := parseOwners_total h.owners
  have httl : ∀ g ∈ (generation :: cands.map (·.1)).eraseDups,
      ttlOf ((generation :: cands.map (·.1)).eraseDups.map
        fun g => (g, pttl remaining g (s (.ownerLease g)))) g
        = pttl remaining g (s (.ownerLease g)) :=
    fun g hg => ttlOf_map (fun g => pttl remaining g (s (.ownerLease g))) hg
  have hcand : ∀ x ∈ cands, x.1 ∈ (generation :: cands.map (·.1)).eraseDups := fun x hx =>
    mem_eraseDups.mpr (mem_cons_of_mem _ (mem_map_of_mem hx))
  have hnotPersistent : ∀ g, pttl remaining g (s (.ownerLease g)) ≠ -1 := by
    intro g
    cases hlease : s (.ownerLease g) with
    | none => exact (by decide : (-2 : Int) ≠ -1)
    | some l =>
      cases l with
      | persistent => exact absurd hlease (h.leased g)
      | expiring =>
        show (remaining g : Int) ≠ -1
        omega
  have hread : ∃ r, liveHolders flock ((generation :: cands.map (·.1)).eraseDups.map
      fun g => (g, pttl remaining g (s (.ownerLease g)))) cands = .ok r := by
    refine liveHolders_total (fun x hx g k => ?_) fun x hx => ?_
    · obtain ⟨y, hy, heq⟩ := hmem x hx
      rw [← heq]
      exact h.decode hy g k
    · rw [httl _ (hcand x hx)]
      exact hnotPersistent _
  obtain ⟨⟨holders, stale⟩, hholders⟩ := hread
  have hbound := Nat.not_lt.mpr h.bounded
  refine ⟨⟨holders, stale, (s (.lock flock ino)).entries.length⟩, ?_⟩
  simp only [readHolders, eval_bind_ok, getLock_ok, eval_failIf_ok, eval_ofExcept_ok, eval_pure_ok]
  refine ⟨_, _, ⟨rfl, trivial, rfl⟩, (), _, ⟨hbound, rfl⟩, _, _, ⟨rfl, rfl, rfl⟩, (), _,
    ⟨hbound, rfl⟩, cands, _, ⟨hparse, rfl⟩, _, _, eval_pttlBatch _, (), _, ⟨?_, rfl⟩, _, _,
    ⟨hholders, rfl⟩, rfl, rfl⟩
  rw [httl _ (mem_eraseDups.mpr mem_cons_self), hlive.1]
  show ¬ (remaining generation : Int) ≤ 0
  have := hlive.2
  omega

theorem WellStored.ranges (h : WellStored s false ino)
    (hread : (readHolders false ino generation remaining).eval s [] = .ok (snapshot, []))
    (hh : holder ∈ snapshot.holders) (hr : r ∈ holder.ranges) :
    r.start < r.stop ∧ r.stop ≤ uint64Max := by
  obtain ⟨-, -, -, -, hmem⟩ := readHolders_ok hread
  obtain ⟨g, k, data, hfield, hdecode⟩ := hmem holder hh
  obtain ⟨rs, hrs, -, hcanon, -⟩ := h.posix rfl _ (mem_entriesOf.mpr hfield)
  obtain ⟨hdata, -⟩ := (decode_ok hdecode).2.2.1 rfl
  have hranges : rs = holder.ranges := Record.posix.inj (hrs.symm.trans hdata)
  rw [← hranges] at hr
  exact ⟨hcanon.nonempty r hr, (hcanon.storable r hr).stop_le⟩

end Read

/-! ## POSIX の三つの判定 -/

/-- 読めた状態で、他の owner の lock が要求を妨げる -/
def Blocked (snapshot : Snapshot) (generation kernelOwner : Nat) (request : Interval) : Bool :=
  snapshot.holders.any fun holder =>
    !holder.isOwner generation kernelOwner && holder.ranges.any (posixConflict request)

def ReportsWouldBlock {α : Type} (r : Result α) : Prop := ∃ e, r = .error e ∧ e.code = .wouldBlock

section Posix

variable {s : LockStore} {ino : InodeID} {remaining : Nat → Nat} {generation kernelOwner : Nat}
  {range : PosixRange} {request : Interval} {snapshot : Snapshot} {ranges : List Interval}

theorem updateRanges_error (h : updateRanges ranges request = .error e) : e.code = .noLocks := by
  simp only [updateRanges, Result.bind_error_iff, Result.failIf_error_iff] at h
  rcases h with ⟨-, rfl⟩ | ⟨_, -, h⟩
  · rfl
  · cases h

theorem setState_not_error : (setState flock ino f data present).eval s ws ≠ .error e := by
  unfold setState
  split
  · exact nofun
  · split
    · exact nofun
    · exact nofun

section

variable (hvalid : validateRange range = .ok request) (hlock : request.type ≠ .unlock)
  (hread : (readHolders false ino generation remaining).eval s [] = .ok (snapshot, []))
include hvalid hlock hread

theorem setPosix_wouldBlock_iff :
    ReportsWouldBlock ((setPosix generation kernelOwner ino remaining range).eval s []) ↔
      Blocked snapshot generation kernelOwner request = true := by
  constructor
  · rintro ⟨e, he, hcode⟩
    simp only [setPosix, eval_bind_error, eval_ofExcept_error, eval_ofExcept_ok, eval_failIf_error,
      eval_failIf_ok, hvalid, reduceCtorEq, false_or,
      Except.ok.injEq] at he
    obtain ⟨_, _, ⟨rfl, rfl⟩, he⟩ := he
    rw [hread] at he
    simp only [reduceCtorEq, false_or, Except.ok.injEq, Prod.mk.injEq] at he
    obtain ⟨_, _, ⟨rfl, rfl⟩, ⟨⟨-, hblock⟩, -⟩ | ⟨-, _, -, hrest⟩⟩ := he
    · exact hblock
    · -- 衝突が無ければ、失敗は予算か owner の数の超過である
      exfalso
      rcases hrest with hupdate | ⟨_, _, -, ⟨-, rfl⟩ | ⟨-, _, -, hset⟩⟩
      · rw [updateRanges_error hupdate] at hcode
        cases hcode
      · cases hcode
      · exact setState_not_error hset
  · intro hblock
    refine ⟨.wouldBlock "conflicting POSIX record lock", ?_, rfl⟩
    refine eval_bind_error.mpr (.inr ⟨request, [], eval_ofExcept_ok.mpr ⟨hvalid, rfl⟩, ?_⟩)
    refine eval_bind_error.mpr (.inr ⟨snapshot, [], hread, ?_⟩)
    exact eval_bind_error.mpr (.inl (eval_failIf_error.mpr ⟨⟨hlock, hblock⟩, rfl⟩))

theorem getPosix_conflict_iff :
    (∃ c, (getPosix generation kernelOwner ino remaining range).eval s [] = .ok (some c, [])) ↔
      Blocked snapshot generation kernelOwner request = true := by
  have htype : range.type = request.type := (endOfRange_request hvalid).2.2
  simp only [getPosix, eval_bind_ok, eval_failIf_ok, eval_ofExcept_ok, eval_pure_ok]
  constructor
  · rintro ⟨c, -, _, ⟨-, rfl⟩, _, _, ⟨hreq, rfl⟩, _, _, hsnap, hfound, -⟩
    cases hvalid.symm.trans hreq
    cases hread.symm.trans hsnap
    obtain ⟨holder, hh, hsome⟩ := exists_of_findSome?_eq_some hfound.symm
    split at hsome
    next => cases hsome
    next hother =>
      obtain ⟨r, hr, -⟩ := Option.map_eq_some_iff.mp hsome
      rw [Blocked, any_eq_true]
      refine ⟨holder, hh, ?_⟩
      rw [Bool.and_eq_true, Bool.not_eq_true', any_eq_true]
      exact ⟨Bool.eq_false_of_not_eq_true hother, r, mem_of_find?_eq_some hr,
        find?_some hr⟩
  · intro hblock
    obtain ⟨holder, hh, hconf⟩ := any_eq_true.mp hblock
    rw [Bool.and_eq_true, Bool.not_eq_true', any_eq_true] at hconf
    obtain ⟨hother, r, hr, hrc⟩ := hconf
    have hsome : (snapshot.holders.findSome? fun holder =>
        if holder.isOwner generation kernelOwner then none
        else (holder.ranges.find? (posixConflict request)).map fun other =>
          (⟨UInt64.ofNat other.start, other.length, holder.kernelOwner, other.type,
            Int32.ofInt other.pid⟩ : PosixConflict)).isSome = true := by
      rw [findSome?_isSome_iff]
      refine ⟨holder, hh, ?_⟩
      rw [if_neg (by rw [hother]; exact Bool.false_ne_true), Option.isSome_map, find?_isSome]
      exact ⟨r, hr, hrc⟩
    obtain ⟨c, hc⟩ := Option.isSome_iff_exists.mp hsome
    refine ⟨c, (), [], ⟨?_, rfl⟩, request, [], ⟨hvalid, rfl⟩, snapshot, [], hread, hc.symm, rfl⟩
    rw [htype]
    exact hlock

end

theorem eligible_posix_iff (h : WellStored s false ino) (hvalid : validateRange range = .ok request)
    (hread : (readHolders false ino generation remaining).eval s [] = .ok (snapshot, [])) :
    ∃ holders, (inspect generation false ino remaining).eval s [] = .ok (holders, []) ∧
      eligible ⟨ino, kernelOwner, false, range, .unlock⟩ holders
        = !Blocked snapshot generation kernelOwner request := by
  refine ⟨_, eval_bind_ok.mpr ⟨snapshot, [], hread, rfl⟩, ?_⟩
  rw [eligible, Blocked, any_map]
  refine congrArg _ (any_congr_mem fun holder hh => ?_)
  show blocks _ _ = _
  unfold blocks Holder.isOwner
  dsimp only
  cases hown : (holder.generation == generation && holder.kernelOwner == kernelOwner) with
  | true => rfl
  | false =>
    rw [if_neg Bool.false_ne_true, if_neg Bool.false_ne_true, any_map]
    refine any_congr_mem fun r hr => ?_
    obtain ⟨hlt, hle⟩ := h.ranges hread hh hr
    exact rangeConflicts_toRange hvalid hlt hle

end Posix

/-! ## flock の二つの判定 -/

/-- 読めた状態で、他の owner の flock が要求を妨げる -/
def FlockBlocked (snapshot : Snapshot) (generation kernelOwner : Nat) (type : FlockType) : Bool :=
  snapshot.holders.any fun holder =>
    !holder.isOwner generation kernelOwner && flockConflict type holder.flock

section Flock

variable {s : LockStore} {ino : InodeID} {remaining : Nat → Nat} {generation kernelOwner : Nat}
  {type : FlockType} {snapshot : Snapshot}

theorem setFlock_wouldBlock_iff
    (hread : (readHolders true ino generation remaining).eval s [] = .ok (snapshot, [])) :
    ReportsWouldBlock
        (flockOutcome ((setFlock generation kernelOwner ino remaining type).eval s [])) ↔
      FlockBlocked snapshot generation kernelOwner type = true := by
  rw [setFlock, eval_bind, hread]
  show ReportsWouldBlock (flockOutcome (eval (if FlockBlocked snapshot generation kernelOwner type
    then _ else _) s [])) ↔ _
  split
  next hblock =>
    refine iff_of_true ?_ hblock
    split
    next => exact ⟨_, rfl, rfl⟩
    next => exact ⟨_, rfl, rfl⟩
  next hfree =>
    refine iff_of_false ?_ hfree
    rintro ⟨e, he, hcode⟩
    -- 衝突が無ければ、失敗は owner の数の超過だけで、変換は手放さない
    generalize hrun : eval _ s [] = r at he
    rcases r with e' | ⟨released, ws⟩
    · cases he
      rcases eval_bind_error.mp hrun with hlimit | ⟨_, _, -, hrest⟩
      · obtain ⟨-, rfl⟩ := eval_failIf_error.mp hlimit
        cases hcode
      · rcases eval_bind_error.mp hrest with hset | ⟨_, _, -, hpure⟩
        · exact setState_not_error hset
        · cases hpure
    · obtain ⟨_, _, -, hrest⟩ := eval_bind_ok.mp hrun
      obtain ⟨_, _, -, hpure⟩ := eval_bind_ok.mp hrest
      obtain ⟨rfl, -⟩ := eval_pure_ok.mp hpure
      cases he

theorem eligible_flock_iff (hlock : type ≠ .unlock) (range : PosixRange)
    (hread : (readHolders true ino generation remaining).eval s [] = .ok (snapshot, [])) :
    ∃ holders, (inspect generation true ino remaining).eval s [] = .ok (holders, []) ∧
      eligible ⟨ino, kernelOwner, true, range, type⟩ holders
        = !FlockBlocked snapshot generation kernelOwner type := by
  refine ⟨_, eval_bind_ok.mpr ⟨snapshot, [], hread, rfl⟩, ?_⟩
  rw [eligible, FlockBlocked, any_map]
  refine congrArg _ (any_congr_mem fun holder _ => ?_)
  show blocks _ _ = _
  unfold blocks Holder.isOwner flockConflict
  dsimp only
  cases hown : (holder.generation == generation && holder.kernelOwner == kernelOwner) with
  | true => rfl
  | false =>
    rw [if_neg Bool.false_ne_true, if_pos rfl, bne_iff_ne.mpr hlock]
    rfl

end Flock

/-! ## 一致 -/

/--
正準な record が正しく保存された状態で、生きている owner の有効な要求について、`SetPosix` が `WouldBlock`
を返すこと、`GetPosix` が衝突を返すこと、`Inspect` の結果に対して `Eligible` が偽であることは同値である。
flock についても、手放した変換を含めて同じである。
-/
theorem lock_deciders_agree (s : LockStore) (ino : InodeID) (remaining : Nat → Nat)
    (generation kernelOwner : Nat) (hlive : LiveOwner s remaining generation) :
    (WellStored s false ino → ∀ range request, validateRange range = .ok request →
      range.type ≠ .unlock →
      ∃ holders, (inspect generation false ino remaining).eval s [] = .ok (holders, []) ∧
        (ReportsWouldBlock ((setPosix generation kernelOwner ino remaining range).eval s []) ↔
          ∃ c, (getPosix generation kernelOwner ino remaining range).eval s []
            = .ok (some c, [])) ∧
        (ReportsWouldBlock ((setPosix generation kernelOwner ino remaining range).eval s []) ↔
          eligible ⟨ino, kernelOwner, false, range, .unlock⟩ holders = false)) ∧
    (WellStored s true ino → ∀ type range, type ≠ .unlock →
      ∃ holders, (inspect generation true ino remaining).eval s [] = .ok (holders, []) ∧
        (ReportsWouldBlock
            (flockOutcome ((setFlock generation kernelOwner ino remaining type).eval s [])) ↔
          eligible ⟨ino, kernelOwner, true, range, type⟩ holders = false)) := by
  refine ⟨fun hstored range request hvalid hlock => ?_, fun hstored type range hlock => ?_⟩
  · obtain ⟨snapshot, hread⟩ := readHolders_total hstored hlive
    obtain ⟨-, -, htype⟩ := endOfRange_request hvalid
    obtain ⟨holders, hinspect, heligible⟩ := eligible_posix_iff hstored hvalid hread
    refine ⟨holders, hinspect, ?_, ?_⟩
    · rw [setPosix_wouldBlock_iff hvalid (htype ▸ hlock) hread,
        getPosix_conflict_iff hvalid (htype ▸ hlock) hread]
    · rw [setPosix_wouldBlock_iff hvalid (htype ▸ hlock) hread, heligible, Bool.not_eq_false']
  · obtain ⟨snapshot, hread⟩ := readHolders_total hstored hlive
    obtain ⟨holders, hinspect, heligible⟩ := eligible_flock_iff hlock range hread
    exact ⟨holders, hinspect, by rw [setFlock_wouldBlock_iff hread, heligible, Bool.not_eq_false']⟩

/-- 他の mount が `[5, ∞)` に書きの lock を持ち、期限の切れた owner の field が残る状態 -/
def sampleLocks : LockStore
  | .lock flock ino =>
    if flock = false ∧ ino = 7 then
      AList.insert (.owner 2 9) (.posix [⟨5, uint64Max, .write, 3⟩])
        (AList.insert (.owner 3 9) (.posix [⟨0, 4, .write, 3⟩]) ∅)
    else (∅ : Hash Field Record)
  | .ownerLease generation => if generation ≤ 2 then some .expiring else none
  | .ownerGeneration => some 3

theorem wellStored_sampleLocks : WellStored sampleLocks false 7 where
  bounded := by decide
  owners := by decide
  posix := by
    have hcanon : ∀ r : Interval, r.start < r.stop → r.Storable → CanonicalRanges [r] := by
      intro r hlt hst
      exact ⟨fun q hq => mem_singleton.mp hq ▸ hlt, pairwise_singleton _ _,
        fun q hq => mem_singleton.mp hq ▸ hst⟩
    intro _ x hx
    have hmem : x ∈ [(Field.owner 2 9, Record.posix [⟨5, uint64Max, .write, 3⟩]),
      (Field.owner 3 9, Record.posix [⟨0, 4, .write, 3⟩])] := hx
    rcases mem_cons.mp hmem with rfl | hmem
    · exact ⟨_, rfl, cons_ne_nil _ _,
        hcanon _ (by decide) ⟨by decide, by decide, by decide, by decide⟩, by decide, by decide⟩
    · rw [mem_singleton.mp hmem]
      exact ⟨_, rfl, cons_ne_nil _ _,
        hcanon _ (by decide) ⟨by decide, by decide, by decide, by decide⟩, by decide, by decide⟩
  flocked := nofun
  leased := by
    intro generation
    show (if generation ≤ 2 then some Lease.expiring else none) ≠ _
    split <;> decide

theorem lock_deciders_agree_sample :
    ∃ holders, (inspect 1 false 7 fun _ => 10).eval sampleLocks [] = .ok (holders, []) ∧
      (ReportsWouldBlock ((setPosix 1 4 7 (fun _ => 10) ⟨0, 0, .read, 0⟩).eval sampleLocks []) ↔
        eligible ⟨7, 4, false, ⟨0, 0, .read, 0⟩, .unlock⟩ holders = false) := by
  obtain ⟨holders, hinspect, -, heligible⟩ :=
    (lock_deciders_agree sampleLocks 7 (fun _ => 10) 1 4 ⟨rfl, by decide⟩).1
      wellStored_sampleLocks ⟨0, 0, .read, 0⟩ ⟨0, uint64Max, .read, 0⟩ rfl (by decide)
  exact ⟨holders, hinspect, heligible⟩

end SwordFS.Fuse
