import SwordFS.Metadata.XAttr

/-!
# ACL の byte 列と形

ACL の検査は entry の tag と id だけを順に読むので、object の permission を三 bit の別の値に
書き換えても検査の結果は変わらない。名指しの user と group の entry には誰も触れない。
-/

namespace SwordFS.Metadata

open List

/-! ## byte 列の往復 -/

theorem readLe16_appendLe16 (v : BitVec 16) :
    readLe16 (UInt8.ofNat v.toNat) (UInt8.ofNat (v.toNat / 256)) = v := by
  refine BitVec.eq_of_toNat_eq ?_
  have hv := v.isLt
  simp only [readLe16, BitVec.toNat_ofNat, UInt8.toNat_ofNat']
  omega

theorem readLe32_appendLe32 (v : BitVec 32) :
    readLe32 (UInt8.ofNat v.toNat) (UInt8.ofNat (v.toNat / 256)) (UInt8.ofNat (v.toNat / 65536))
      (UInt8.ofNat (v.toNat / 16777216)) = v := by
  refine BitVec.eq_of_toNat_eq ?_
  have hv := v.isLt
  simp only [readLe32, BitVec.toNat_ofNat, UInt8.toNat_ofNat']
  omega

def encodeAclEntry (e : AclEntry) : Bytes :=
  appendLe16 e.tag ++ appendLe16 e.perm ++ appendLe32 e.id

theorem parseAclEntries_encode : ∀ entries : List AclEntry,
    parseAclEntries (entries.flatMap encodeAclEntry) = entries
  | [] => rfl
  | e :: es => by
    show _ :: parseAclEntries (es.flatMap encodeAclEntry) = _
    rw [parseAclEntries_encode es, readLe16_appendLe16, readLe16_appendLe16, readLe32_appendLe32]

theorem length_encode : ∀ entries : List AclEntry,
    (entries.flatMap encodeAclEntry).length = 8 * entries.length
  | [] => rfl
  | e :: es => by
    rw [flatMap_cons, length_append, length_encode es, length_cons]
    show 8 + _ = _
    omega

variable {acl : List AclEntry}

theorem parseAcl_serializeAcl (h : validateAcl acl = .ok ()) :
    parseAcl (serializeAcl acl) = .ok acl := by
  have hlen : (acl.flatMap encodeAclEntry).length % 8 = 0 := by
    rw [length_encode]
    omega
  show parseAcl (_ :: _ :: _ :: _ :: acl.flatMap encodeAclEntry) = .ok acl
  simp only [parseAcl, hlen, parseAclEntries_encode, readLe32_appendLe32, h]
  rfl

theorem appendLe16_readLe16 (b0 b1 : UInt8) : appendLe16 (readLe16 b0 b1) = [b0, b1] := by
  have h0 := b0.toNat_lt
  have h1 := b1.toNat_lt
  simp only [appendLe16, readLe16, BitVec.toNat_ofNat, List.cons.injEq, and_true, ← UInt8.toNat_inj,
    UInt8.toNat_ofNat']
  omega

theorem appendLe32_readLe32 (b0 b1 b2 b3 : UInt8) :
    appendLe32 (readLe32 b0 b1 b2 b3) = [b0, b1, b2, b3] := by
  have h0 := b0.toNat_lt
  have h1 := b1.toNat_lt
  have h2 := b2.toNat_lt
  have h3 := b3.toNat_lt
  simp only [appendLe32, readLe32, BitVec.toNat_ofNat, List.cons.injEq, and_true, ← UInt8.toNat_inj,
    UInt8.toNat_ofNat']
  omega

theorem encode_parseAclEntries (rest : Bytes) (h : rest.length % 8 = 0) :
    (parseAclEntries rest).flatMap encodeAclEntry = rest := by
  fun_induction parseAclEntries rest with
  | case1 b0 b1 b2 b3 b4 b5 b6 b7 rest ih =>
    simp only [length_cons] at h
    rw [flatMap_cons, ih (by omega), encodeAclEntry, appendLe16_readLe16, appendLe16_readLe16,
      appendLe32_readLe32]
    rfl
  | case2 rest hshort =>
    have hlt : rest.length < 8 := by
      by_contra hge
      match rest, hge with
      | _ :: _ :: _ :: _ :: _ :: _ :: _ :: _ :: _, _ => exact hshort _ _ _ _ _ _ _ _ _ rfl
    obtain rfl := length_eq_zero_iff.mp (by omega : rest.length = 0)
    rfl

theorem serializeAcl_parseAcl (h : parseAcl data = .ok acl) : serializeAcl acl = data := by
  unfold parseAcl at h
  split at h
  next b0 b1 b2 b3 rest =>
    obtain ⟨hlen, h⟩ := Result.ite_error_ok_iff.mp h
    obtain ⟨hversion, h⟩ := Result.ite_error_ok_iff.mp h
    obtain ⟨_, -, rfl⟩ := Result.map_ok_iff.mp h
    have hentries := encode_parseAclEntries rest (by simpa using hlen)
    have hheader : readLe32 b0 b1 b2 b3 = BitVec.ofNat 32 kAclXattrVersion := by
      simpa using hversion
    show appendLe32 _ ++ (parseAclEntries rest).flatMap encodeAclEntry = _
    rw [← hheader, appendLe32_readLe32, hentries]
    rfl
  next => cases h

theorem parseAcl_valid (h : parseAcl data = .ok acl) : validateAcl acl = .ok () := by
  unfold parseAcl at h
  split at h
  · split at h
    · cases h
    split at h
    · cases h
    obtain ⟨_, hv, rfl⟩ := Result.map_ok_iff.mp h
    exact hv
  · cases h

/-! ## 検査の文法 -/

def AclEntry.isNamed (e : AclEntry) : Bool := e.tag == kAclUser || e.tag == kAclGroup

/-- permission は三 bit に収まり、名指しの entry だけが id を持つ -/
structure AclEntry.Sound (e : AclEntry) : Prop where
  perm : e.PermOk
  id : e.id = kAclUndefinedId ↔ e.isNamed = false

section

attribute [local simp] Result.ite_error_ok_iff Result.ite_ok_iff
attribute [local simp] kAclUserObj kAclUser kAclGroupObj kAclGroup kAclMask kAclOther

theorem AclScan.step_ok_iff {s s' : AclScan} :
    s.step e = .ok s' ↔ e.Sound ∧ (
      (e.tag = kAclUserObj ∧ s.state = .userObj ∧ { s with state := .users } = s') ∨
      (e.tag = kAclUser ∧ s.state = .users ∧ e.id ∉ s.userIds ∧
        { s with userIds := e.id :: s.userIds, hasNamed := true } = s') ∨
      (e.tag = kAclGroupObj ∧ s.state = .users ∧ { s with state := .groups } = s') ∨
      (e.tag = kAclGroup ∧ s.state = .groups ∧ e.id ∉ s.groupIds ∧
        { s with groupIds := e.id :: s.groupIds, hasNamed := true } = s') ∨
      (e.tag = kAclMask ∧ s.state = .groups ∧ { s with hasMask := true, state := .other } = s') ∨
      (e.tag = kAclOther ∧ (s.state = .groups ∨ s.state = .other) ∧
        { s with state := .done } = s')) := by
  have hsound : e.Sound ↔ e.perm &&& ~~~kAclPermMask = 0 ∧
      (e.id = kAclUndefinedId ↔ e.isNamed = false) :=
    ⟨fun h => ⟨h.perm, h.id⟩, fun h => ⟨h.1, h.2⟩⟩
  -- 最初の三つの検査は `Sound` に当たる
  have hchecks : ∀ x : Result AclScan, (if e.perm &&& ~~~kAclPermMask != 0 then
      .error (.invalidArgument "POSIX ACL entry has invalid permission bits")
    else if e.isNamed && e.id == kAclUndefinedId then
      .error (.invalidArgument "named POSIX ACL entry has undefined id")
    else if !e.isNamed && e.id != kAclUndefinedId then
      .error (.invalidArgument "POSIX ACL object entry has a concrete id")
    else x) = .ok s' ↔ e.Sound ∧ x = .ok s' := by
    intro x
    rw [Result.ite_error_ok_iff, Result.ite_error_ok_iff, Result.ite_error_ok_iff, hsound]
    cases e.isNamed <;> simp [and_assoc]
  refine (hchecks _).trans (and_congr_right fun _ => ?_)
  by_cases h1 : e.tag = kAclUserObj
  · simp [h1]
  by_cases h2 : e.tag = kAclUser
  · simp [h2]
  by_cases h3 : e.tag = kAclGroupObj
  · simp [h3]
  by_cases h4 : e.tag = kAclGroup
  · simp [h4]
  by_cases h5 : e.tag = kAclMask
  · simp [h5]
  by_cases h6 : e.tag = kAclOther
  · simp [h6, or_iff_not_imp_left]
  · simp_all

end

def Fresh (seen ids : List (BitVec 32)) : Prop := ids.Nodup ∧ ∀ i ∈ ids, i ∉ seen

theorem fresh_cons : Fresh seen (i :: ids) ↔ i ∉ seen ∧ Fresh (i :: seen) ids := by
  simp only [Fresh, nodup_cons, forall_mem_cons]
  constructor
  · rintro ⟨⟨hi, hnodup⟩, hseen, hall⟩
    refine ⟨hseen, hnodup, fun j hj hmem => ?_⟩
    rcases mem_cons.mp hmem with rfl | hmem
    · exact hi hj
    · exact hall j hj hmem
  · rintro ⟨hseen, hnodup, hall⟩
    exact ⟨⟨fun hi => hall i hi mem_cons_self, hnodup⟩, hseen,
      fun j hj hmem => hall j hj (mem_cons_of_mem _ hmem)⟩

/-- 状態 `s` から `entries` を読み終えると、検査を通る -/
def AclScan.Accepts (s : AclScan) (entries : List AclEntry) : Prop :=
  ∃ s', entries.foldlM AclScan.step s = Except.ok s' ∧ s'.state = .done ∧
    (s'.hasNamed = true → s'.hasMask = true)

section

variable {s : AclScan} {e : AclEntry} {entries : List AclEntry} {users groups : List (BitVec 32)}
  {n m : Bool}

theorem AclScan.accepts_nil :
    s.Accepts [] ↔ s.state = .done ∧ (s.hasNamed = true → s.hasMask = true) :=
  ⟨fun ⟨_, hs, h⟩ => by cases hs; exact h, fun h => ⟨s, rfl, h⟩⟩

theorem AclScan.accepts_cons :
    s.Accepts (e :: entries) ↔ ∃ s', s.step e = .ok s' ∧ s'.Accepts entries := by
  constructor
  · rintro ⟨s', hs, h⟩
    obtain ⟨s₁, h₁, h₂⟩ := Result.bind_ok_iff.mp (foldlM_cons.symm.trans hs)
    exact ⟨s₁, h₁, s', h₂, h⟩
  · rintro ⟨s₁, h₁, s', h₂, h⟩
    exact ⟨s', foldlM_cons.trans (Result.bind_ok_iff.mpr ⟨s₁, h₁, h₂⟩), h⟩

theorem AclScan.accepts_done : AclScan.Accepts ⟨.done, users, groups, n, m⟩ entries ↔
    entries = [] ∧ (n = true → m = true) := by
  cases entries with
  | nil => simp [accepts_nil]
  | cons e es => simp [accepts_cons, step_ok_iff]

theorem AclScan.accepts_other : AclScan.Accepts ⟨.other, users, groups, n, true⟩ entries ↔
    ∃ other, entries = [other] ∧ other.Sound ∧ other.tag = kAclOther := by
  cases entries with
  | nil => simp [accepts_nil]
  | cons e es =>
    simp only [accepts_cons, step_ok_iff, reduceCtorEq, false_and, and_false, false_or, or_true,
      true_and]
    constructor
    · rintro ⟨_, ⟨he, htag, rfl⟩, h⟩
      obtain ⟨rfl, -⟩ := accepts_done.mp h
      exact ⟨e, rfl, he, htag⟩
    · rintro ⟨_, h, he, htag⟩
      cases h
      exact ⟨_, ⟨he, htag, rfl⟩, accepts_done.mpr ⟨rfl, fun _ => rfl⟩⟩

/-- `GROUP_OBJ` の後ろ：`GROUP* [MASK] OTHER` -/
structure GroupTail (seen : List (BitVec 32)) (n : Prop) (gs : List AclEntry)
    (m : Option AclEntry) (o : AclEntry) : Prop where
  groups : ∀ e ∈ gs, e.Sound ∧ e.tag = kAclGroup
  mask : ∀ e ∈ m, e.Sound ∧ e.tag = kAclMask
  other : o.Sound ∧ o.tag = kAclOther
  fresh : Fresh seen (gs.map (·.id))
  named : n ∨ gs ≠ [] → m ≠ none

theorem AclScan.accepts_groups : AclScan.Accepts ⟨.groups, users, groups, n, false⟩ entries ↔
    ∃ gs m o, entries = gs ++ (m.toList ++ [o]) ∧ GroupTail groups (n = true) gs m o := by
  induction entries generalizing groups n with
  | nil => simp [accepts_nil]
  | cons e es ih =>
    simp only [accepts_cons, step_ok_iff, reduceCtorEq, false_and, and_false, false_or, true_or,
      true_and]
    constructor
    · rintro ⟨_, ⟨he, ⟨htag, hid, rfl⟩ | ⟨htag, rfl⟩ | ⟨htag, rfl⟩⟩, h⟩
      · obtain ⟨gs, m, o, rfl, ht⟩ := ih.mp h
        exact ⟨e :: gs, m, o, rfl, forall_mem_cons.mpr ⟨⟨he, htag⟩, ht.groups⟩, ht.mask,
          ht.other, fresh_cons.mpr ⟨hid, ht.fresh⟩, fun _ => ht.named (.inl rfl)⟩
      · obtain ⟨o, rfl, ho⟩ := accepts_other.mp h
        exact ⟨[], some e, o, rfl, forall_mem_nil _, by simpa using ⟨he, htag⟩, ho,
          ⟨.nil, forall_mem_nil _⟩, fun _ => Option.some_ne_none e⟩
      · obtain ⟨rfl, hnamed⟩ := accepts_done.mp h
        refine ⟨[], none, e, rfl, forall_mem_nil _, by simp, ⟨he, htag⟩,
          ⟨.nil, forall_mem_nil _⟩, ?_⟩
        rintro (hn | hn)
        · exact nomatch hnamed hn
        · exact absurd rfl hn
    · rintro ⟨gs, m, o, heq, ht⟩
      cases gs with
      | nil =>
        cases m with
        | none =>
          cases heq
          refine ⟨_, ⟨ht.other.1, .inr (.inr ⟨ht.other.2, rfl⟩)⟩, accepts_done.mpr ⟨rfl, ?_⟩⟩
          exact fun hn => absurd rfl (ht.named (.inl hn))
        | some mask =>
          cases heq
          obtain ⟨hm, htag⟩ := ht.mask e rfl
          exact ⟨_, ⟨hm, .inr (.inl ⟨htag, rfl⟩)⟩, accepts_other.mpr ⟨o, rfl, ht.other⟩⟩
      | cons g gs =>
        cases heq
        obtain ⟨hg, hgs⟩ := forall_mem_cons.mp ht.groups
        obtain ⟨hid, hfresh⟩ := fresh_cons.mp ht.fresh
        refine ⟨_, ⟨hg.1, .inl ⟨hg.2, hid, rfl⟩⟩, ih.mpr ⟨gs, m, o, rfl, ?_⟩⟩
        exact ⟨hgs, ht.mask, ht.other, hfresh, fun _ => ht.named (.inr (cons_ne_nil _ _))⟩

theorem AclScan.accepts_users : AclScan.Accepts ⟨.users, users, groups, n, false⟩ entries ↔
    ∃ us g gs m o, entries = us ++ g :: (gs ++ (m.toList ++ [o])) ∧
      (∀ e ∈ us, e.Sound ∧ e.tag = kAclUser) ∧ (g.Sound ∧ g.tag = kAclGroupObj) ∧
      Fresh users (us.map (·.id)) ∧ GroupTail groups (n = true ∨ us ≠ []) gs m o := by
  induction entries generalizing users n with
  | nil => simp [accepts_nil]
  | cons e es ih =>
    simp only [accepts_cons, step_ok_iff, reduceCtorEq, false_and, and_false, false_or, or_false,
      true_and]
    constructor
    · rintro ⟨_, ⟨he, ⟨htag, hid, rfl⟩ | ⟨htag, rfl⟩⟩, h⟩
      · obtain ⟨us, g, gs, m, o, rfl, hus, hg, hfresh, ht⟩ := ih.mp h
        exact ⟨e :: us, g, gs, m, o, rfl, forall_mem_cons.mpr ⟨⟨he, htag⟩, hus⟩, hg,
          fresh_cons.mpr ⟨hid, hfresh⟩,
          { ht with named := fun _ => ht.named (.inl (.inl rfl)) }⟩
      · obtain ⟨gs, m, o, rfl, ht⟩ := accepts_groups.mp h
        exact ⟨[], e, gs, m, o, rfl, forall_mem_nil _, ⟨he, htag⟩,
          ⟨.nil, forall_mem_nil _⟩,
          { ht with named := fun hn => ht.named (by simpa using hn) }⟩
    · rintro ⟨us, g, gs, m, o, heq, hus, hg, hfresh, ht⟩
      cases us with
      | nil =>
        cases heq
        exact ⟨_, ⟨hg.1, .inr ⟨hg.2, rfl⟩⟩, accepts_groups.mpr ⟨gs, m, o, rfl,
          { ht with named := fun hn => ht.named (by simpa using hn) }⟩⟩
      | cons u us =>
        cases heq
        obtain ⟨hu, hus⟩ := forall_mem_cons.mp hus
        obtain ⟨hid, hfresh⟩ := fresh_cons.mp hfresh
        exact ⟨_, ⟨hu.1, .inl ⟨hu.2, hid, rfl⟩⟩, ih.mpr ⟨us, g, gs, m, o, rfl, hus, hg, hfresh,
          { ht with named := fun _ => ht.named (.inl (.inr (cons_ne_nil _ _))) }⟩⟩

end

/-- ACL の entry の区分 -/
structure AclParts where
  userObj : AclEntry
  users : List AclEntry
  groupObj : AclEntry
  groups : List AclEntry
  mask : Option AclEntry
  other : AclEntry

def AclParts.entries (p : AclParts) : List AclEntry :=
  p.userObj :: p.users ++ p.groupObj :: p.groups ++ p.mask.toList ++ [p.other]

/-- POSIX.1e の文法：`USER_OBJ USER* GROUP_OBJ GROUP* [MASK] OTHER` -/
structure AclParts.Valid (p : AclParts) : Prop where
  userObj : p.userObj.tag = kAclUserObj
  users : ∀ e ∈ p.users, e.tag = kAclUser
  groupObj : p.groupObj.tag = kAclGroupObj
  groups : ∀ e ∈ p.groups, e.tag = kAclGroup
  mask : ∀ e ∈ p.mask, e.tag = kAclMask
  other : p.other.tag = kAclOther
  perm : ∀ e ∈ p.entries, e.perm.toNat ≤ 7
  id : ∀ e ∈ p.entries, e.id = kAclUndefinedId ↔ e.isNamed = false
  userIds : (p.users.map (·.id)).Nodup
  groupIds : (p.groups.map (·.id)).Nodup
  named : p.users ≠ [] ∨ p.groups ≠ [] → p.mask ≠ none

theorem AclEntry.permOk_iff {e : AclEntry} : e.PermOk ↔ e.perm.toNat ≤ 7 := by
  have hand : (e.perm &&& kAclPermMask).toNat = e.perm.toNat % 8 := by
    rw [BitVec.toNat_and]
    exact Nat.and_two_pow_sub_one_eq_mod e.perm.toNat 3
  have hsplit : e.perm &&& kAclPermMask ||| e.perm &&& ~~~kAclPermMask = e.perm := by
    rw [← BitVec.and_or_distrib_left]
    exact BitVec.and_allOnes
  constructor
  · intro h
    have heq : e.perm &&& kAclPermMask = e.perm := by
      rw [h] at hsplit
      simpa using hsplit
    rw [heq] at hand
    omega
  · intro h
    have heq : e.perm &&& kAclPermMask = e.perm := BitVec.eq_of_toNat_eq (by omega)
    rw [AclEntry.PermOk, ← heq, BitVec.and_assoc]
    simp

theorem validateAcl_accepts :
    validateAcl acl = .ok () ↔ 3 ≤ acl.length ∧ AclScan.Accepts {} acl := by
  unfold validateAcl AclScan.Accepts
  split
  next hlt => exact ⟨nofun, fun h => absurd h.1 (by omega)⟩
  next hge =>
    refine Result.bind_ok_iff.trans ⟨fun ⟨s, hs, h⟩ => ⟨by omega, s, hs, ?_⟩,
      fun ⟨_, s, hs, hdone, hnamed⟩ => ⟨s, hs, ?_⟩⟩
    · have hdone : s.state = .done := by
        by_contra hd
        rw [if_pos (by simpa using hd)] at h
        cases h
      rw [if_neg (by simpa using hdone)] at h
      refine ⟨hdone, fun hn => ?_⟩
      by_contra hm
      rw [if_pos (by simpa [hn] using hm)] at h
      cases h
    · rw [if_neg (by simpa using hdone), if_neg (by simpa using hnamed)]
      rfl

theorem validateAcl_iff : validateAcl acl = .ok () ↔ ∃ p : AclParts, p.entries = acl ∧ p.Valid := by
  rw [validateAcl_accepts]
  constructor
  · rintro ⟨-, h⟩
    cases acl with
    | nil => simp [AclScan.accepts_nil] at h
    | cons u es =>
      simp only [AclScan.accepts_cons, AclScan.step_ok_iff, reduceCtorEq, false_and, and_false,
        or_false, true_and] at h
      obtain ⟨_, ⟨hu, htag, rfl⟩, h⟩ := h
      obtain ⟨us, g, gs, m, o, rfl, hus, hg, hfresh, ht⟩ := AclScan.accepts_users.mp h
      have hsound : ∀ e ∈ (⟨u, us, g, gs, m, o⟩ : AclParts).entries, e.Sound := by
        simp only [AclParts.entries, mem_append, mem_cons, Option.mem_toList,
          not_mem_nil, or_false]
        rintro e ((((rfl | he) | rfl | he) | he) | rfl)
        exacts [hu, (hus e he).1, hg.1, (ht.groups e he).1, (ht.mask e he).1, ht.other.1]
      refine ⟨⟨u, us, g, gs, m, o⟩, by simp [AclParts.entries], htag, fun e he => (hus e he).2,
        hg.2, fun e he => (ht.groups e he).2, fun e he => (ht.mask e he).2, ht.other.2,
        fun e he => AclEntry.permOk_iff.mp (hsound e he).perm, fun e he => (hsound e he).id,
        hfresh.1, ht.fresh.1, fun hn => ht.named ?_⟩
      exact hn.imp_left .inr
  · rintro ⟨⟨u, us, g, gs, m, o⟩, rfl, h⟩
    have hsound : ∀ e ∈ (⟨u, us, g, gs, m, o⟩ : AclParts).entries, e.Sound := fun e he =>
      ⟨AclEntry.permOk_iff.mpr (h.perm e he), h.id e he⟩
    simp only [AclParts.entries, mem_append, mem_cons, Option.mem_toList,
          not_mem_nil, or_false, or_imp, forall_and, forall_eq] at hsound
    obtain ⟨⟨⟨⟨hu, hus⟩, hg, hgs⟩, hm⟩, ho⟩ := hsound
    refine ⟨by simp [AclParts.entries]; omega, ?_⟩
    simp only [AclParts.entries, append_assoc, cons_append]
    rw [AclScan.accepts_cons]
    refine ⟨_, AclScan.step_ok_iff.mpr ⟨hu, .inl ⟨h.userObj, rfl, rfl⟩⟩, ?_⟩
    refine AclScan.accepts_users.mpr ⟨us, g, gs, m, o, rfl, fun e he => ⟨hus e he, h.users e he⟩,
      ⟨hg, h.groupObj⟩, ⟨h.userIds, by simp⟩, fun e he => ⟨hgs e he, h.groups e he⟩,
      fun e he => ⟨hm e he, h.mask e he⟩, ⟨ho, h.other⟩, ⟨h.groupIds, by simp⟩,
      fun hn => h.named ?_⟩
    simpa using hn

theorem validateAcl_find (h : validateAcl acl = .ok ())
    (htag : tag = kAclUserObj ∨ tag = kAclGroupObj ∨ tag = kAclOther) :
    ∃ e, findAcl tag acl = some e := by
  obtain ⟨p, rfl, hp⟩ := validateAcl_iff.mp h
  have hex : ∃ e ∈ p.entries, e.tag = tag := by
    obtain rfl | rfl | rfl := htag
    · exact ⟨p.userObj, by simp [AclParts.entries], hp.userObj⟩
    · exact ⟨p.groupObj, by simp [AclParts.entries], hp.groupObj⟩
    · exact ⟨p.other, by simp [AclParts.entries], hp.other⟩
  obtain ⟨e, he, het⟩ := hex
  exact Option.isSome_iff_exists.mp (find?_isSome.mpr ⟨e, he, by simpa using het⟩)

theorem validateAcl_find_groupClass (h : validateAcl acl = .ok ()) :
    ∃ e, findAcl (aclGroupClass acl) acl = some e := by
  unfold aclGroupClass
  split
  · next hm => exact Option.isSome_iff_exists.mp hm
  · exact validateAcl_find h (.inr (.inl rfl))

/-- `PermissionsMode` などが読む三つの class の entry がある -/
structure HasClasses (acl : List AclEntry) : Prop where
  user : ∃ e, findAcl kAclUserObj acl = some e
  group : ∃ e, findAcl (aclGroupClass acl) acl = some e
  other : ∃ e, findAcl kAclOther acl = some e

/-! ## permission だけの書き換え -/

/-- tag と id が同じで、permission は三 bit に収まり、名指しの entry は同じ -/
structure AclEntry.Reperm (e e' : AclEntry) : Prop where
  tag : e'.tag = e.tag
  id : e'.id = e.id
  permOk : e.PermOk ∧ e'.PermOk
  named : e.isNamed = true → e' = e

def Reperm : List AclEntry → List AclEntry → Prop := List.Forall₂ AclEntry.Reperm

theorem AclEntry.Reperm.rfl' {e : AclEntry} (h : e.PermOk) : e.Reperm e :=
  ⟨rfl, rfl, ⟨h, h⟩, fun _ => rfl⟩

namespace Reperm

variable {acl acl' acl'' : List AclEntry}

theorem refl (h : ∀ e ∈ acl, e.PermOk) : Reperm acl acl :=
  List.forall₂_same.mpr fun e he => .rfl' (h e he)

section

variable (h : Reperm acl acl')
include h

theorem permOk : ∀ e ∈ acl', e.PermOk := by
  induction h with
  | nil => exact forall_mem_nil _
  | cons hd _ ih => exact forall_mem_cons.mpr ⟨hd.permOk.2, ih⟩

theorem trans (h' : Reperm acl' acl'') : Reperm acl acl'' := by
  induction h generalizing acl'' with
  | nil => cases h'; exact .nil
  | cons hd _ ih =>
    cases h' with
    | cons hd' tl' =>
      refine .cons ⟨hd'.tag.trans hd.tag, hd'.id.trans hd.id, ⟨hd.permOk.1, hd'.permOk.2⟩, ?_⟩
        (ih tl')
      intro hn
      obtain rfl := hd.named hn
      exact hd'.named hn

theorem map_tag : acl'.map (·.tag) = acl.map (·.tag) := by
  induction h with
  | nil => rfl
  | cons hd _ ih => rw [map_cons, map_cons, hd.tag, ih]

theorem isMinimal : aclIsMinimal acl' = aclIsMinimal acl := by
  unfold aclIsMinimal
  rw [h.map_tag]

theorem filter_isNamed : acl'.filter AclEntry.isNamed = acl.filter AclEntry.isNamed := by
  induction h with
  | nil => rfl
  | @cons e e' es es' hd _ ih =>
    have hn : e'.isNamed = e.isNamed := by unfold AclEntry.isNamed; rw [hd.tag]
    rw [filter_cons, filter_cons, hn, ih]
    split
    · next hnamed => rw [hd.named hnamed]
    · rfl

end

theorem step_eq (h : e.Reperm e') (s : AclScan) : s.step e' = s.step e := by
  have hp : (e.perm &&& ~~~kAclPermMask != 0) = false := bne_eq_false_iff_eq.mpr h.permOk.1
  have hp' : (e'.perm &&& ~~~kAclPermMask != 0) = false := bne_eq_false_iff_eq.mpr h.permOk.2
  simp only [AclScan.step, h.tag, h.id, hp, hp']

theorem foldlM_step (h : Reperm acl acl') (s : AclScan) :
    acl'.foldlM AclScan.step s = (acl.foldlM AclScan.step s : Result AclScan) := by
  induction h generalizing s with
  | nil => rfl
  | cons hd _ ih =>
    rw [foldlM_cons, foldlM_cons, step_eq hd]
    exact bind_congr fun s' => ih s'

theorem validate (h : Reperm acl acl') : validateAcl acl' = validateAcl acl := by
  unfold validateAcl
  rw [h.foldlM_step, ← List.Forall₂.length_eq h]

end Reperm

theorem modifyAcl_reperm (htag : tag ≠ kAclUser ∧ tag ≠ kAclGroup)
    (hf : ∀ p, p &&& ~~~kAclPermMask = 0 → f p &&& ~~~kAclPermMask = 0) :
    ∀ {acl : List AclEntry}, (∀ e ∈ acl, e.PermOk) → Reperm acl (modifyAcl tag f acl)
  | [], _ => .nil
  | a :: es, h => by
    obtain ⟨ha, hes⟩ := forall_mem_cons.mp h
    unfold modifyAcl
    split
    · next ht =>
      refine .cons ⟨rfl, rfl, ⟨ha, hf _ ha⟩, fun hn => ?_⟩ (Reperm.refl hes)
      have ht : a.tag = tag := by simpa using ht
      simp [AclEntry.isNamed, ht, htag.1, htag.2] at hn
    · exact .cons (.rfl' ha) (modifyAcl_reperm htag hf hes)

theorem aclGroupClass_object (acl : List AclEntry) :
    aclGroupClass acl = kAclMask ∨ aclGroupClass acl = kAclGroupObj := by
  unfold aclGroupClass
  split
  · exact .inl rfl
  · exact .inr rfl

def classBits (mode : Mode) (shift : Nat) : BitVec 16 :=
  (mode >>> shift).truncate 16 &&& kAclPermMask

theorem aclUpdate_reperm (hf : ∀ shift p, p &&& ~~~kAclPermMask = 0 →
      f p (classBits mode shift) &&& ~~~kAclPermMask = 0)
    (h : ∀ e ∈ acl, e.PermOk) : Reperm acl (aclUpdate f mode acl) := by
  have hgroup : aclGroupClass acl ≠ kAclUser ∧ aclGroupClass acl ≠ kAclGroup := by
    obtain hg | hg := aclGroupClass_object acl <;> rw [hg] <;> decide
  have hobj : kAclUserObj ≠ kAclUser ∧ kAclUserObj ≠ kAclGroup := by decide
  have hother : kAclOther ≠ kAclUser ∧ kAclOther ≠ kAclGroup := by decide
  have h1 := modifyAcl_reperm hobj (hf 6) h
  have h2 := modifyAcl_reperm hgroup (hf 3) h1.permOk
  have h3 := modifyAcl_reperm hother (hf 0) h2.permOk
  exact (h1.trans h2).trans h3

theorem aclApplyMode_reperm (h : ∀ e ∈ acl, e.PermOk) (mode : Mode) :
    Reperm acl (aclApplyMode mode acl) := by
  refine aclUpdate_reperm (fun shift p _ => ?_) h
  unfold classBits
  rw [BitVec.and_assoc, show kAclPermMask &&& ~~~kAclPermMask = 0#16 by decide]
  exact BitVec.and_zero

theorem aclRestrictToMode_reperm (h : ∀ e ∈ acl, e.PermOk) (mode : Mode) :
    Reperm acl (aclRestrictToMode mode acl) := by
  refine aclUpdate_reperm (fun shift p hp => ?_) h
  rw [BitVec.and_assoc, BitVec.and_comm (classBits mode shift), ← BitVec.and_assoc, hp]
  exact BitVec.zero_and

/-! ## chmod と PermissionsMode -/

theorem findAcl_cons (t : BitVec 16) (a : AclEntry) (es : List AclEntry) :
    findAcl t (a :: es) = if a.tag = t then some a else findAcl t es := by
  unfold findAcl
  split
  · next h => exact find?_cons_of_pos (by simpa using h)
  · next h => exact find?_cons_of_neg (by simpa using h)

theorem findAcl_modifyAcl (t tag : BitVec 16) (f : BitVec 16 → BitVec 16) :
    ∀ acl : List AclEntry, findAcl t (modifyAcl tag f acl) =
      (findAcl t acl).map fun e => if t = tag then { e with perm := f e.perm } else e
  | [] => rfl
  | a :: es => by
    have ih := findAcl_modifyAcl t tag f es
    unfold modifyAcl
    by_cases ha : a.tag = tag <;> by_cases ht : a.tag = t
    · subst ha ht
      simp [findAcl_cons]
    · have hne : t ≠ tag := fun h => ht (ha.trans h.symm)
      simp [findAcl_cons, ha, hne, hne.symm]
    · have hne : t ≠ tag := fun h => ha (ht.trans h)
      simp [findAcl_cons, ht, hne]
    · simp [findAcl_cons, ha, ht, ih]

theorem HasClasses.modifyAcl (h : HasClasses acl) (tag : BitVec 16) (f : BitVec 16 → BitVec 16) :
    HasClasses (modifyAcl tag f acl) := by
  have hclass : aclGroupClass (Metadata.modifyAcl tag f acl) = aclGroupClass acl := by
    simp [aclGroupClass, findAcl_modifyAcl]
  have hfind : ∀ t, (∃ e, findAcl t acl = some e) →
      ∃ e, findAcl t (Metadata.modifyAcl tag f acl) = some e := by
    rintro t ⟨e, he⟩
    exact ⟨_, by rw [findAcl_modifyAcl, he]; rfl⟩
  exact ⟨hfind _ h.user, hclass ▸ hfind _ h.group, hfind _ h.other⟩

/--
`PosixAcl::Parse` は、版 2 の header に文法どおりの entry が続く byte 列だけを受け入れる。
受け入れた ACL を `Serialize` すると元の byte 列に戻る。`PermissionsMode`、`ApplyMode`、
`RestrictToMode` の引く entry は、書き換えの途中でも必ず見つかる。
-/
theorem posix_acl_parse_exact (data : Bytes) :
    ((∃ acl, parseAcl data = .ok acl) ↔
      ∃ p : AclParts, p.Valid ∧ data = [2, 0, 0, 0] ++ p.entries.flatMap encodeAclEntry) ∧
    ∀ acl, parseAcl data = .ok acl → serializeAcl acl = data ∧ HasClasses acl ∧
      ∀ f g, HasClasses (modifyAcl kAclUserObj f acl) ∧
        HasClasses (modifyAcl (aclGroupClass acl) g (modifyAcl kAclUserObj f acl)) := by
  refine ⟨⟨?_, ?_⟩, fun acl h => ?_⟩
  · rintro ⟨acl, h⟩
    obtain ⟨p, rfl, hp⟩ := validateAcl_iff.mp (parseAcl_valid h)
    exact ⟨p, hp, (serializeAcl_parseAcl h).symm⟩
  · rintro ⟨p, hp, rfl⟩
    exact ⟨p.entries, parseAcl_serializeAcl (validateAcl_iff.mpr ⟨p, rfl, hp⟩)⟩
  · have hv := parseAcl_valid h
    have hclasses : HasClasses acl := ⟨validateAcl_find hv (.inl rfl),
      validateAcl_find_groupClass hv, validateAcl_find hv (.inr (.inr rfl))⟩
    exact ⟨serializeAcl_parseAcl h, hclasses, fun f g =>
      ⟨hclasses.modifyAcl _ f, (hclasses.modifyAcl _ f).modifyAcl _ g⟩⟩

theorem aclGroupClass_aclUpdate (f : BitVec 16 → BitVec 16 → BitVec 16) (mode : Mode)
    (acl : List AclEntry) : aclGroupClass (aclUpdate f mode acl) = aclGroupClass acl := by
  unfold aclGroupClass aclUpdate
  simp only [findAcl_modifyAcl, Option.isSome_map]

theorem aclPerm_aclApplyMode (h : validateAcl acl = .ok ()) (mode : Mode) :
    aclPerm kAclUserObj (aclApplyMode mode acl) = (classBits mode 6).zeroExtend 32 ∧
    aclPerm (aclGroupClass acl) (aclApplyMode mode acl) = (classBits mode 3).zeroExtend 32 ∧
    aclPerm kAclOther (aclApplyMode mode acl) = (classBits mode 0).zeroExtend 32 := by
  obtain ⟨eu, hu⟩ := validateAcl_find h (.inl rfl)
  obtain ⟨eg, hg⟩ := validateAcl_find_groupClass h
  obtain ⟨eo, ho⟩ := validateAcl_find h (.inr (.inr rfl))
  have hgo : aclGroupClass acl ≠ kAclOther ∧ aclGroupClass acl ≠ kAclUserObj := by
    obtain hc | hc := aclGroupClass_object acl <;> rw [hc] <;> decide
  have huo : kAclUserObj ≠ kAclOther := by decide
  simp only [aclPerm, aclApplyMode, aclUpdate, findAcl_modifyAcl, hu, hg, ho, huo, huo.symm, hgo.1,
    hgo.2, hgo.1.symm, hgo.2.symm, if_true, if_false, Option.map_some, Option.getD_some]
  exact ⟨rfl, rfl, rfl⟩

theorem classBits_getLsbD (mode : Mode) (shift i : Nat) :
    ((classBits mode shift).zeroExtend 32 <<< shift).getLsbD i =
      (decide (shift ≤ i ∧ i < shift + 3) && mode.getLsbD i) := by
  have hmask : ∀ j, kAclPermMask.getLsbD j = decide (j < 3) := by
    intro j
    by_cases hj : j < 16
    · revert j
      decide
    · rw [BitVec.getLsbD_of_ge _ _ (by omega), decide_eq_false (by omega)]
  simp only [classBits, BitVec.getLsbD_shiftLeft, BitVec.zeroExtend_eq_setWidth,
    BitVec.getLsbD_setWidth, BitVec.getLsbD_and, BitVec.getLsbD_ushiftRight, hmask]
  by_cases h32 : i < 32
  · by_cases hs : shift ≤ i ∧ i < shift + 3
    · have hi : shift + (i - shift) = i := by omega
      simp [hi, h32, hs, show i - shift < 3 by omega, show i - shift < 16 by omega,
        show i - shift < 32 by omega]
    · rw [decide_eq_false hs, Bool.false_and]
      grind
  · simp [h32, BitVec.getLsbD_of_ge mode i (by omega)]

theorem classBits_join (mode : Mode) :
    ((classBits mode 6).zeroExtend 32 <<< 6) ||| ((classBits mode 3).zeroExtend 32 <<< 3) |||
      (classBits mode 0).zeroExtend 32 = mode &&& 0x1FF#32 := by
  have hmask : ∀ i < 32, (0x1FF#32).getLsbD i = decide (i < 9) := by decide
  refine BitVec.eq_of_getLsbD_eq fun i hi => ?_
  have h0 := classBits_getLsbD mode 0 i
  rw [BitVec.shiftLeft_zero] at h0
  rw [BitVec.getLsbD_or, BitVec.getLsbD_or, classBits_getLsbD, classBits_getLsbD, h0,
    BitVec.getLsbD_and, hmask i hi, ← Bool.and_or_distrib_right, ← Bool.and_or_distrib_right,
    Bool.and_comm]
  congr 1
  simp only [← Bool.decide_or]
  exact decide_eq_decide.mpr (by omega)

theorem aclPermissionsMode_aclApplyMode (h : validateAcl acl = .ok ()) (mode : Mode) :
    aclPermissionsMode (aclApplyMode mode acl) = mode &&& 0x1FF#32 := by
  obtain ⟨hu, hg, ho⟩ := aclPerm_aclApplyMode h mode
  have hclass : aclGroupClass (aclApplyMode mode acl) = aclGroupClass acl :=
    aclGroupClass_aclUpdate _ mode acl
  rw [aclPermissionsMode, hclass, hu, hg, ho, classBits_join]

end SwordFS.Metadata
