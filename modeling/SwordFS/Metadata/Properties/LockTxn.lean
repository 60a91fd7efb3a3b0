import SwordFS.Metadata.Redis.LockAuthority

/-!
# lock の transaction の仕様

成功した `setPosix` と `setFlock` が lock Hash をどう変えるかを述べる。
範囲の更新は byte ごとに見る。更新後に covers される byte は、元から持っていたか、要求したものである。
-/

namespace SwordFS.Metadata.Lock

open List Infra Txn Cmd

/-! ## 範囲の更新 -/

def Interval.Covers (r : Interval) (p : Nat) (t : PosixType) : Prop :=
  r.start ≤ p ∧ p < r.stop ∧ r.type = t

def Interval.Nonempty (r : Interval) : Prop := r.start < r.stop

variable {request part last r r' : Interval} {ranges out acc : List Interval} {p : Nat}
  {t : PosixType}

theorem exists_covers_of_overlaps (hr : r.Nonempty) (hr' : r'.Nonempty)
    (h : overlaps r r' = true) : ∃ p, r.Covers p r.type ∧ r'.Covers p r'.type := by
  simp only [overlaps, Bool.and_eq_true, decide_eq_true_eq] at h
  unfold Interval.Nonempty at hr hr'
  exact ⟨max r.start r'.start, ⟨le_max_left .., max_lt hr h.2, rfl⟩,
    ⟨le_max_right .., max_lt h.1 hr', rfl⟩⟩

theorem overlaps_of_covers (h : r.Covers p t) (h' : r'.Covers p t') : overlaps r r' = true := by
  simp only [overlaps, Bool.and_eq_true, decide_eq_true_eq]
  exact ⟨h.1.trans_lt h'.2.1, h'.1.trans_lt h.2.1⟩

theorem mem_cutOut (h : r ∈ cutOut request part) :
    (∀ p t, r.Covers p t → part.Covers p t) ∧ (part.Nonempty → r.Nonempty) := by
  unfold cutOut at h
  split at h
  · next hov =>
    simp only [overlaps, Bool.and_eq_true, decide_eq_true_eq] at hov
    rcases mem_append.mp h with h | h
    · split at h
      · next hlt =>
        obtain rfl := mem_singleton.mp h
        exact ⟨fun p t hc => ⟨hc.1, hc.2.1.trans hov.2, hc.2.2⟩, fun _ => hlt⟩
      · cases h
    · split at h
      · next hlt =>
        obtain rfl := mem_singleton.mp h
        exact ⟨fun p t hc => ⟨hov.1.le.trans hc.1, hc.2.1, hc.2.2⟩, fun _ => hlt⟩
      · cases h
  · obtain rfl := mem_singleton.mp h
    exact ⟨fun _ _ hc => hc, id⟩

theorem mem_pushRange (h : r ∈ pushRange acc part) :
    r ∈ acc ∨ r = part ∨ ∃ last ∈ acc, mergeable last part = true ∧
      r = { last with stop := part.stop } := by
  cases acc with
  | nil => exact .inr (.inl (mem_singleton.mp h))
  | cons last rest =>
    simp only [pushRange] at h
    split at h
    · next hm =>
      rcases mem_cons.mp h with rfl | h
      · exact .inr (.inr ⟨last, mem_cons_self, hm, rfl⟩)
      · exact .inl (mem_cons_of_mem _ h)
    · rcases mem_cons.mp h with rfl | h
      · exact .inr (.inl rfl)
      · exact .inl h

theorem covers_merged (hm : mergeable last part = true)
    (h : Interval.Covers { last with stop := part.stop } p t) :
    last.Covers p t ∨ part.Covers p t := by
  simp only [mergeable, Bool.and_eq_true, beq_iff_eq] at hm
  obtain ⟨⟨hstop, htype⟩, -⟩ := hm
  obtain ⟨h1, h2, h3⟩ := h
  rcases lt_or_ge p last.stop with hlt | hge
  · exact .inl ⟨h1, hlt, h3⟩
  · exact .inr ⟨hstop ▸ hge, h2, htype ▸ h3⟩

theorem mem_foldl_pushRange : ∀ {acc : List Interval},
    r ∈ parts.foldl pushRange acc →
    (∀ p t, r.Covers p t → ∃ q ∈ acc ++ parts, q.Covers p t) ∧
      ((∀ q ∈ acc ++ parts, q.Nonempty) → r.Nonempty) := by
  induction parts with
  | nil => exact fun h => ⟨fun p t hc => ⟨r, by simpa using h, hc⟩, fun hq => hq r (by simpa using h)⟩
  | cons part parts ih =>
    intro acc h
    obtain ⟨hcov, hne⟩ := ih h
    -- 一つ積んだ列の要素を、積む前の要素に戻す
    have hback : ∀ q ∈ pushRange acc part ++ parts,
        (∀ p t, q.Covers p t → ∃ q' ∈ acc ++ part :: parts, q'.Covers p t) ∧
          ((∀ q' ∈ acc ++ part :: parts, q'.Nonempty) → q.Nonempty) := by
      intro q hq
      rcases mem_append.mp hq with hq | hq
      · rcases mem_pushRange hq with hq | rfl | ⟨last, hl, hm, rfl⟩
        · exact ⟨fun _ _ hc => ⟨q, mem_append_left _ hq, hc⟩,
            fun h => h q (mem_append_left _ hq)⟩
        · exact ⟨fun _ _ hc => ⟨q, by simp, hc⟩, fun h => h q (by simp)⟩
        · refine ⟨fun p t hc => ?_, fun h => ?_⟩
          · rcases covers_merged hm hc with hc | hc
            · exact ⟨last, mem_append_left _ hl, hc⟩
            · exact ⟨part, by simp, hc⟩
          · simp only [mergeable, Bool.and_eq_true, beq_iff_eq] at hm
            have hlast := h last (mem_append_left _ hl)
            have hpart := h part (by simp)
            exact hlast.trans (hm.1.1 ▸ hpart)
      · have hmem : q ∈ acc ++ part :: parts :=
          mem_append_right _ (mem_cons_of_mem _ hq)
        exact ⟨fun _ _ hc => ⟨q, hmem, hc⟩, fun h => h q hmem⟩
    refine ⟨fun p t hc => ?_, fun hall => hne fun q hq => (hback q hq).2 hall⟩
    obtain ⟨q, hq, hc⟩ := hcov p t hc
    exact (hback q hq).1 p t hc

/-- 更新後に覆われる byte は、元から同じ種類で覆われていたか、要求したもの -/
theorem updateRanges_ok (h : updateRanges ranges request = .ok out) (hr : r ∈ out) :
    (∀ p t, r.Covers p t →
      (∃ q ∈ ranges, q.Covers p t) ∨ request.type ≠ .unlock ∧ request.Covers p t) ∧
      ((∀ q ∈ ranges, q.Nonempty) → request.Nonempty → r.Nonempty) := by
  simp only [updateRanges, Result.bind_ok_iff, Result.failIf_ok_iff, Result.pure_ok_iff] at h
  obtain ⟨-, -, rfl⟩ := h
  obtain ⟨hcov, hne⟩ := mem_foldl_pushRange (mem_reverse.mp hr)
  -- 切り取る前の範囲に戻す
  have hback : ∀ q ∈ ([] : List Interval) ++ (ranges.flatMap (cutOut request) ++
      (if request.type = .unlock then [] else [request])).insertionSort
        (fun a b => a.start ≤ b.start),
      (∃ part ∈ ranges, q ∈ cutOut request part) ∨ q = request ∧ request.type ≠ .unlock := by
    intro q hq
    rw [nil_append, mem_insertionSort, mem_append, mem_flatMap] at hq
    rcases hq with hq | hq
    · exact .inl hq
    · split at hq
      · cases hq
      · next hu => exact .inr ⟨mem_singleton.mp hq, hu⟩
  refine ⟨fun p t hc => ?_, fun hall hreq => hne fun q hq => ?_⟩
  · obtain ⟨q, hq, hc⟩ := hcov p t hc
    rcases hback q hq with ⟨part, hp, hq⟩ | ⟨rfl, hu⟩
    · exact .inl ⟨part, hp, (mem_cutOut hq).1 p t hc⟩
    · exact .inr ⟨hu, hc⟩
  · rcases hback q hq with ⟨part, hp, hq⟩ | ⟨rfl, -⟩
    · exact (mem_cutOut hq).2 (hall part hp)
    · exact hreq

theorem validateRange_ok {range : PosixRange} (h : validateRange range = .ok request) :
    request.Nonempty := by
  simp only [validateRange, Result.bind_ok_iff, Result.failIf_ok_iff, Result.pure_ok_iff] at h
  obtain ⟨-, hov, -, -, -, hne, rfl⟩ := h
  have hlt := range.start.toNat_lt
  unfold Interval.Nonempty uint64Max at *
  dsimp only at hne ⊢
  split at hne
  · next h0 => rw [if_pos h0]; omega
  · next h0 => rw [if_neg h0]; omega

/-! ## 読み -/

variable {s : LockStore} {ws ws' : List LockCmd} {flock : Bool} {ino : InodeID}
  {g k generation kernelOwner : Nat} {remaining : Nat → Nat} {data : Record} {holder : Holder}

def Live (s : LockStore) (generation : Nat) : Prop := s (.ownerLease generation) ≠ none

def field (s : LockStore) (flock : Bool) (ino : InodeID) (generation kernelOwner : Nat) :
    Option Record := (s (.lock flock ino)).lookup (.owner generation kernelOwner)

theorem getLock_ok : (getLock flock ino).eval s ws = .ok (h, ws') ↔
      h = s (.lock flock ino) ∧ ws = [] ∧ ws' = [] := eval_read_ok

theorem getLease_ok : (getLease g).eval s ws = .ok (lease, ws') ↔
      lease = s (.ownerLease g) ∧ ws = [] ∧ ws' = [] := eval_read_ok

theorem pttlBatch_ok : ∀ {gs : List Nat} {ttls : List (Nat × Int)},
    (pttlBatch remaining gs).eval s [] = .ok (ttls, ws') →
      ws' = [] ∧ ttls = gs.map fun g => (g, pttl remaining g (s (.ownerLease g)))
  | [], ttls, h => by
    obtain ⟨rfl, rfl⟩ := eval_pure_ok.mp h
    exact ⟨rfl, rfl⟩
  | g :: gs, ttls, h => by
    simp only [pttlBatch, eval_bind_ok, getLease_ok, eval_pure_ok] at h
    obtain ⟨_, _, ⟨rfl, -, rfl⟩, rest, _, hrest, rfl, rfl⟩ := h
    obtain ⟨rfl, rfl⟩ := pttlBatch_ok hrest
    exact ⟨rfl, rfl⟩

theorem ttlOf_map {gs : List Nat} (f : Nat → Int) (h : g ∈ gs) :
    ttlOf (gs.map fun g => (g, f g)) g = f g := by
  unfold ttlOf
  induction gs with
  | nil => cases h
  | cons g' gs ih =>
    by_cases hg : g = g'
    · subst hg; simp
    · have hmem : g ∈ gs := (mem_cons.mp h).resolve_left hg
      simpa [lookup_cons, beq_false_of_ne hg] using ih hmem

theorem decodeRanges_nonempty : ∀ {prev : Option Interval} {count : Nat} {ranges : List Interval},
    decodeRanges prev count ranges = .ok () → ∀ r ∈ ranges, r.Nonempty
  | _, _, [], _ => fun _ h => absurd h not_mem_nil
  | prev, count, r :: rs, h => by
    simp only [decodeRanges, Result.bind_ok_iff, Result.failIf_ok_iff] at h
    obtain ⟨-, hr, -, -, -, -, h⟩ := h
    refine forall_mem_cons.mpr ⟨?_, decodeRanges_nonempty h⟩
    exact Nat.lt_of_not_le fun hc => hr (.inr (.inr (.inr hc)))

theorem decode_ok (h : decode flock data { generation, kernelOwner } = .ok holder) :
    holder.generation = generation ∧ holder.kernelOwner = kernelOwner ∧
      (flock = false → data = .posix holder.ranges ∧ ∀ r ∈ holder.ranges, r.Nonempty) ∧
      (flock = true → data = .flock holder.flock) := by
  unfold decode at h
  split at h
  · cases h; exact ⟨rfl, rfl, by rintro ⟨⟩, fun _ => rfl⟩
  · cases h; exact ⟨rfl, rfl, by rintro ⟨⟩, fun _ => rfl⟩
  · cases h
  · next ranges =>
    simp only [Result.bind_ok_iff, Result.failIf_ok_iff, Result.pure_ok_iff] at h
    obtain ⟨-, -, -, -, _, hdec, rfl⟩ := h
    exact ⟨rfl, rfl, fun _ => ⟨rfl, decodeRanges_nonempty hdec⟩, by rintro ⟨⟩⟩
  · cases h

theorem mem_parseOwners : ∀ {entries : List (Field × Record)} {out : List (Nat × Nat × Record)},
    parseOwners entries = .ok out →
      ((g, k, data) ∈ out ↔ (.owner g k, data) ∈ entries)
  | [], out, h => by cases h; exact iff_of_false not_mem_nil not_mem_nil
  | (f, d) :: rest, out, h => by
    simp only [parseOwners] at h
    split at h
    · cases h
    · next g' k' hf =>
      simp only [Result.bind_ok_iff, Result.pure_ok_iff] at h
      obtain ⟨others, hrest, rfl⟩ := h
      have hf' : f = .owner g' k' := by
        unfold parseOwner at hf
        split at hf
        · split at hf
          · cases hf; rfl
          · cases hf
        · cases hf
      subst hf'
      simp [mem_parseOwners hrest, and_assoc]

theorem liveHolders_ok :
    ∀ {cands : List (Nat × Nat × Record)} {holders : List Holder} {stale : Bool},
      liveHolders flock ttls cands = .ok (holders, stale) →
      (∀ g k data, (g, k, data) ∈ cands → ttlOf ttls g ≠ -1 ∧ (0 ≤ ttlOf ttls g →
        ∃ holder ∈ holders, decode flock data { generation := g, kernelOwner := k } = .ok holder)) ∧
      (∀ holder ∈ holders, ∃ g k data, (g, k, data) ∈ cands ∧
        decode flock data { generation := g, kernelOwner := k } = .ok holder)
  | [], holders, stale, h => by
    cases h
    exact ⟨fun _ _ _ h => absurd h not_mem_nil, fun _ h => absurd h not_mem_nil⟩
  | (g₀, k₀, d₀) :: rest, holders, stale, h => by
    simp only [liveHolders, Result.bind_ok_iff, Result.failIf_ok_iff] at h
    obtain ⟨-, hne, h⟩ := h
    split at h
    · simp only [Result.bind_ok_iff, Result.pure_ok_iff] at h
      obtain ⟨holder, hdec, ⟨holders', stale'⟩, hrest, heq⟩ := h
      cases heq
      obtain ⟨hall, hmem⟩ := liveHolders_ok hrest
      refine ⟨fun g k data hc => ?_, forall_mem_cons.mpr ⟨?_, fun x hx => ?_⟩⟩
      · rcases mem_cons.mp hc with heq | hc
        · cases heq
          exact ⟨hne, fun _ => ⟨holder, mem_cons_self, hdec⟩⟩
        · refine ⟨(hall g k data hc).1, fun hl => ?_⟩
          obtain ⟨x, hx, hd⟩ := (hall g k data hc).2 hl
          exact ⟨x, mem_cons_of_mem _ hx, hd⟩
      · exact ⟨g₀, k₀, d₀, mem_cons_self, hdec⟩
      · obtain ⟨g, k, data, hc, hd⟩ := hmem x hx
        exact ⟨g, k, data, mem_cons_of_mem _ hc, hd⟩
    · next hneg =>
      simp only [Result.bind_ok_iff, Result.pure_ok_iff] at h
      obtain ⟨⟨holders', stale'⟩, hrest, heq⟩ := h
      cases heq
      obtain ⟨hall, hmem⟩ := liveHolders_ok hrest
      refine ⟨fun g k data hc => ?_, fun x hx => ?_⟩
      · rcases mem_cons.mp hc with heq | hc
        · cases heq
          exact ⟨hne, fun hl => absurd hl hneg⟩
        · exact hall g k data hc
      · obtain ⟨g, k, data, hc, hd⟩ := hmem x hx
        exact ⟨g, k, data, mem_cons_of_mem _ hc, hd⟩

theorem mem_entriesOf : (f, data) ∈ entriesOf h ↔ h.lookup f = some data := by
  rw [← Option.mem_def, AList.mem_lookup_iff]
  unfold entriesOf
  rw [mem_map]
  constructor
  · rintro ⟨⟨f', d'⟩, he, heq⟩
    cases heq
    exact he
  · exact fun he => ⟨⟨f, data⟩, he, rfl⟩

theorem readHolders_ok {snapshot : Snapshot}
    (h : (readHolders flock ino g remaining).eval s ws = .ok (snapshot, ws')) :
    ws = [] ∧ ws' = [] ∧ Live s g ∧
      (∀ generation kernelOwner data, field s flock ino generation kernelOwner = some data →
        Live s generation → ∃ holder ∈ snapshot.holders,
          decode flock data { generation, kernelOwner } = .ok holder) ∧
      (∀ holder ∈ snapshot.holders, ∃ generation kernelOwner data,
        field s flock ino generation kernelOwner = some data ∧
          decode flock data { generation, kernelOwner } = .ok holder) := by
  simp only [readHolders, eval_bind_ok, getLock_ok, eval_failIf_ok, eval_ofExcept_ok,
    eval_pure_ok] at h
  obtain ⟨_, _, ⟨rfl, rfl, rfl⟩, -, _, ⟨-, rfl⟩, _, _, ⟨rfl, -, rfl⟩, -, _, ⟨-, rfl⟩, cands, _,
    ⟨hparse, rfl⟩, ttls, _, httl, -, _, ⟨hreq, rfl⟩, ⟨holders, stale⟩, _, ⟨hlive, rfl⟩, rfl,
    rfl⟩ := h
  obtain ⟨rfl, rfl⟩ := pttlBatch_ok httl
  obtain ⟨hall, hmem⟩ := liveHolders_ok hlive
  have hcand : ∀ g k data, (g, k, data) ∈ cands ↔ field s flock ino g k = some data := by
    intro g k data
    rw [mem_parseOwners hparse, mem_entriesOf]
    rfl
  refine ⟨rfl, rfl, fun hn => ?_, fun gen own data hf hl => ?_, fun x hx => ?_⟩
  · rw [ttlOf_map (fun g => pttl remaining g (s (.ownerLease g)))
      (mem_eraseDups.mpr mem_cons_self), hn] at hreq
    exact hreq (show (-2 : Int) ≤ 0 by decide)
  · have hc := (hcand gen own data).mpr hf
    obtain ⟨hne, hdec⟩ := hall gen own data hc
    have hmemg : gen ∈ (g :: cands.map (·.1)).eraseDups :=
      mem_eraseDups.mpr (mem_cons_of_mem _ (mem_map.mpr ⟨_, hc, rfl⟩))
    refine hdec ?_
    rw [ttlOf_map (fun g => pttl remaining g (s (.ownerLease g))) hmemg] at hne ⊢
    unfold Live at hl
    cases hlease : s (.ownerLease gen) with
    | none => exact absurd hlease hl
    | some lease =>
      rw [hlease] at hne
      cases lease with
      | expiring => exact Int.natCast_nonneg _
      | persistent => exact absurd rfl hne
  · obtain ⟨gen, own, data, hc, hd⟩ := hmem x hx
    exact ⟨gen, own, data, (hcand gen own data).mp hc, hd⟩

/-! ## 書き -/

/-- 一つの owner の field だけを `data` に替える。`fence` の有無は問わない -/
structure Replaces (s s' : LockStore) (flock : Bool) (ino : InodeID)
    (generation kernelOwner : Nat) (data : Option Record) : Prop where
  other : ∀ key, key ≠ .lock flock ino → s' key = s key
  field : ∀ g k, field s' flock ino g k =
    if g = generation ∧ k = kernelOwner then data else field s flock ino g k

namespace LockCmd

variable (s : LockStore) (f f' : Field)

theorem hset_lookup : ((hset flock ino f data).apply s (.lock flock ino)).lookup f' =
    if f' = f then some data else (s (.lock flock ino)).lookup f' := by
  have happ : (hset flock ino f data).apply s (.lock flock ino) =
      AList.insert f data (s (.lock flock ino)) := apply_key ..
  rw [happ]
  split
  · next h => subst h; exact AList.lookup_insert _
  · next h => exact AList.lookup_insert_ne h

theorem hdel_lookup : ((hdel flock ino f).apply s (.lock flock ino)).lookup f' =
    if f' = f then none else (s (.lock flock ino)).lookup f' := by
  have happ : (hdel flock ino f).apply s (.lock flock ino) =
      AList.erase f (s (.lock flock ino)) := apply_key ..
  rw [happ]
  split
  · next h => subst h; exact AList.lookup_erase ..
  · next h => exact AList.lookup_erase_ne h

end LockCmd

theorem setState_ok {data : Option Record}
    (h : (setState flock ino (.owner generation kernelOwner) data fieldExists).eval s [] =
      .ok (u, ws)) : Replaces s (applyAll ws s) flock ino generation kernelOwner data := by
  have hother : ∀ c : LockCmd, c.key = .lock flock ino → ∀ (s : LockStore) key,
      key ≠ .lock flock ino → c.apply s key = s key :=
    fun c hc s key hk => c.apply_of_ne s (hc ▸ hk)
  unfold setState at h
  split at h
  · next r =>
    obtain rfl := eval_write_ok.mp h
    refine ⟨hother _ rfl s, fun g k => ?_⟩
    simp only [field, nil_append, applyAll_cons, applyAll_nil, LockCmd.hset_lookup,
      Field.owner.injEq]
  · split at h
    · obtain rfl := eval_write_ok.mp h
      refine ⟨hother _ rfl s, fun g k => ?_⟩
      simp only [field, nil_append, applyAll_cons, applyAll_nil, LockCmd.hdel_lookup,
        Field.owner.injEq]
    · simp only [eval_bind_ok, eval_write_ok] at h
      obtain ⟨-, _, rfl, -, _, rfl, rfl⟩ := h
      refine ⟨fun key hk => ?_, fun g k => ?_⟩
      · simp only [nil_append, cons_append, applyAll_cons, applyAll_nil]
        rw [hother _ rfl _ key hk, hother _ rfl _ key hk, hother _ rfl _ key hk]
      · simp only [field, nil_append, cons_append, applyAll_cons, applyAll_nil,
          LockCmd.hdel_lookup, LockCmd.hset_lookup, Field.owner.injEq, reduceCtorEq, if_false]

/-- 成功した `setPosix`：他の生きている owner の範囲と両立する値に替わる -/
theorem setPosix_ok {range : PosixRange}
    (h : (setPosix generation kernelOwner ino remaining range).eval s [] = .ok (u, ws)) :
    Live s generation ∧
    (∀ g k ranges, field s false ino g k = some (.posix ranges) → Live s g →
      ∀ r ∈ ranges, r.Nonempty) ∧
    ∃ owned : List Interval,
      Replaces s (applyAll ws s) false ino generation kernelOwner
        (if owned = [] then none else some (.posix owned)) ∧
      ∀ r ∈ owned, r.Nonempty ∧ ∀ p t, r.Covers p t →
        (∃ ranges q, field s false ino generation kernelOwner = some (.posix ranges) ∧
          q ∈ ranges ∧ q.Covers p t) ∨
        ∀ g k ranges r', field s false ino g k = some (.posix ranges) → Live s g →
          ¬ (g = generation ∧ k = kernelOwner) → r' ∈ ranges → r'.Covers p r'.type →
          t ≠ .write ∧ r'.type ≠ .write := by
  simp only [setPosix, eval_bind_ok, eval_ofExcept_ok, eval_failIf_ok] at h
  obtain ⟨request, _, ⟨hreq, rfl⟩, snapshot, _, hread, -, _, ⟨hconf, rfl⟩, owned, _, ⟨hupd, rfl⟩,
    -, _, ⟨-, rfl⟩, h⟩ := h
  obtain ⟨-, rfl, hlive, hall, hmem⟩ := readHolders_ok hread
  refine ⟨hlive, fun g k ranges hfield hl => ?_, owned, setState_ok h, fun r hr => ?_⟩
  · obtain ⟨holder, -, hdec⟩ := hall g k (.posix ranges) hfield hl
    obtain ⟨-, -, hposix, -⟩ := decode_ok hdec
    obtain ⟨heq, hne⟩ := hposix rfl
    exact Record.posix.inj heq ▸ hne
  -- 自分の field から読んだ範囲
  have hown : ∀ q ∈ ((snapshot.holders.find? (·.isOwner generation kernelOwner)).map
      (·.ranges)).getD [], q.Nonempty ∧ ∃ ranges,
        field s false ino generation kernelOwner = some (.posix ranges) ∧ q ∈ ranges := by
    intro q hq
    cases hf : snapshot.holders.find? (·.isOwner generation kernelOwner) with
    | none => rw [hf] at hq; cases hq
    | some holder =>
      rw [hf] at hq
      have hisown := find?_some hf
      obtain ⟨gen, own, data, hfield, hdec⟩ := hmem holder (mem_of_find?_eq_some hf)
      obtain ⟨rfl, rfl, hposix, -⟩ := decode_ok hdec
      obtain ⟨rfl, hne⟩ := hposix rfl
      simp only [Holder.isOwner, Bool.and_eq_true, beq_iff_eq] at hisown
      exact ⟨hne q hq, holder.ranges, hisown.1 ▸ hisown.2 ▸ hfield, hq⟩
  obtain ⟨hcov, hne⟩ := updateRanges_ok hupd hr
  refine ⟨hne (fun q hq => (hown q hq).1) (validateRange_ok hreq), fun p t hc => ?_⟩
  rcases hcov p t hc with ⟨q, hq, hc⟩ | ⟨hu, hc⟩
  · obtain ⟨-, ranges, hfield, hqr⟩ := hown q hq
    exact .inl ⟨ranges, q, hfield, hqr, hc⟩
  · refine .inr fun g k ranges r' hfield hl hother hr' hc' => ?_
    obtain ⟨holder, hh, hdec⟩ := hall g k (.posix ranges) hfield hl
    obtain ⟨hg, hk, hposix, -⟩ := decode_ok hdec
    have hranges : holder.ranges = ranges := (Record.posix.inj (hposix rfl).1).symm
    -- 両立しなければ WouldBlock になっている
    by_contra hcon
    refine hconf ⟨hu, any_eq_true.mpr ⟨holder, hh, ?_⟩⟩
    have hwrite : request.type = .write ∨ r'.type = .write := by
      rw [hc.2.2]
      exact or_iff_not_and_not.mpr hcon
    simp only [Bool.and_eq_true, Bool.not_eq_true', any_eq_true]
    refine ⟨?_, r', hranges ▸ hr', ?_⟩
    · simpa [Holder.isOwner, hg, hk] using hother
    · simpa [posixConflict, overlaps_of_covers hc hc'] using hwrite

/-- 成功した `setFlock`：手放すか、他の生きている owner の flock と両立する値に替わる -/
theorem setFlock_ok {type : FlockType}
    (h : (setFlock generation kernelOwner ino remaining type).eval s [] = .ok (released, ws)) :
    Live s generation ∧ ∃ data : Option Record,
      Replaces s (applyAll ws s) true ino generation kernelOwner data ∧
      (data = none ∨ data = some (.flock type) ∧
        ∀ g k t, field s true ino g k = some (.flock t) → Live s g →
          ¬ (g = generation ∧ k = kernelOwner) → type ≠ .exclusive ∧ t ≠ .exclusive) := by
  simp only [setFlock, eval_bind_ok] at h
  obtain ⟨snapshot, _, hread, h⟩ := h
  obtain ⟨-, rfl, hlive, hall, -⟩ := readHolders_ok hread
  refine ⟨hlive, ?_⟩
  split at h
  · split at h
    · simp only [eval_bind_ok, eval_pure_ok] at h
      obtain ⟨_, _, h, -, rfl⟩ := h
      exact ⟨none, setState_ok h, .inl rfl⟩
    · cases h
  · next hconf =>
    simp only [eval_bind_ok, eval_failIf_ok, eval_pure_ok] at h
    obtain ⟨-, _, ⟨-, rfl⟩, _, _, h, -, rfl⟩ := h
    refine ⟨_, setState_ok h, ?_⟩
    split
    · exact .inl rfl
    · next hu =>
      refine .inr ⟨rfl, fun g k t hfield hl hother => ?_⟩
      obtain ⟨holder, hh, hdec⟩ := hall g k (.flock t) hfield hl
      obtain ⟨hg, hk, -, hflock⟩ := decode_ok hdec
      have ht : holder.flock = t := (Record.flock.inj (hflock rfl)).symm
      -- 両立しなければ conflict になっている
      by_contra hcon
      refine hconf (any_eq_true.mpr ⟨holder, hh, ?_⟩)
      have hex : type = .exclusive ∨ t = .exclusive := or_iff_not_and_not.mpr hcon
      simp only [Bool.and_eq_true, Bool.not_eq_true']
      refine ⟨by simpa [Holder.isOwner, hg, hk] using hother, ?_⟩
      simpa [flockConflict, hu, ht] using hex

/-- 一つの Hash から field を減らすだけの変更 -/
structure Shrinks (s s' : LockStore) (flock : Bool) (ino : InodeID) : Prop where
  other : ∀ key, key ≠ .lock flock ino → s' key = s key
  field : ∀ g k data, Lock.field s' flock ino g k = some data → Lock.field s flock ino g k = some data

theorem hdelAll_ok : ∀ {fields : List Field} {s₀ : LockStore} {ws : List LockCmd} {u : Unit},
    (hdelAll flock ino fields).eval s₀ ws = .ok (u, ws') →
      ∃ cs, ws' = ws ++ cs ∧ ∀ s, Shrinks s (applyAll cs s) flock ino
  | [], s₀, ws, u, h => by
    obtain ⟨-, rfl⟩ := eval_pure_ok.mp h
    exact ⟨[], (append_nil _).symm, fun s => ⟨fun _ _ => rfl, fun _ _ _ h => h⟩⟩
  | f :: fields, s₀, ws, u, h => by
    simp only [hdelAll, eval_bind_ok, eval_write_ok] at h
    obtain ⟨-, _, rfl, h⟩ := h
    obtain ⟨cs, rfl, hcs⟩ := hdelAll_ok h
    refine ⟨LockCmd.hdel flock ino f :: cs, by simp, fun s => ⟨fun key hk => ?_, ?_⟩⟩
    · rw [applyAll_cons, (hcs _).other key hk]
      exact apply_of_ne _ _ hk
    · intro g k data hf
      have := (hcs _).field g k data hf
      rw [Lock.field, LockCmd.hdel_lookup] at this
      split at this
      · cases this
      · exact this

theorem cleanupStale_ok (h : (cleanupStale flock ino remaining page).eval s [] = .ok (u, ws)) :
    Shrinks s (applyAll ws s) flock ino := by
  simp only [cleanupStale, eval_bind_ok, getLock_ok] at h
  obtain ⟨_, _, ⟨rfl, -, rfl⟩, ttls, _, httl, h⟩ := h
  obtain ⟨rfl, -⟩ := pttlBatch_ok httl
  obtain ⟨cs, rfl, hcs⟩ := hdelAll_ok h
  exact hcs s

theorem allocateGeneration_ok (h : allocateGeneration.eval s [] = .ok (g, ws)) :
    ∃ previous, s .ownerGeneration = some previous ∧ g = previous + 1 ∧
      ws = [LockCmd.incrGeneration] := by
  simp only [allocateGeneration, eval_bind_ok, getGeneration, watch, eval_read_ok] at h
  obtain ⟨counter, _, ⟨rfl, -, rfl⟩, h⟩ := h
  split at h
  · cases h
  · next previous hp =>
    simp only [eval_bind_ok, eval_failIf_ok, eval_write_ok, eval_pure_ok] at h
    obtain ⟨-, _, ⟨-, rfl⟩, -, _, rfl, rfl, rfl⟩ := h
    exact ⟨previous, hp, rfl, rfl⟩

end SwordFS.Metadata.Lock
