import SwordFS.Fuse.AdvisoryLocks

/-!
# POSIX lock の後始末

`FuseAdvisoryLocks` の hint と authority の関係。

owner ごとの stripe を持つ間、その owner の hint と authority を変えるのは持ち主だけである。例外は
遅れて実行される変更だが、確認の取れた変更がそれより前のものを無効にする。
-/

namespace SwordFS.Fuse

open Function

open Metadata.Lock (PosixType PosixRange)

/-! ## 持ち得る範囲 -/

/-- authority が範囲を持つか、遅れて実行される変更によって持ち得る -/
def Authority.MayHold (a : Authority) : Prop :=
  (∃ p, a.held p ≠ none) ∨ ∃ l ∈ a.late, ∃ p, l.held p ≠ none

theorem covers_fullUnlock (p : Nat) : covers fullUnlock p = true := by
  simp [covers, fullUnlock]

theorem Authority.not_mayHold_fullUnlock (a : Authority) : ¬ (a.apply fullUnlock).MayHold := by
  rintro (⟨p, hp⟩ | ⟨l, hl, -⟩)
  · simp only [apply, Held.update, covers_fullUnlock] at hp
    exact hp rfl
  · cases hl

variable {r : PosixRange}

theorem Held.update_unlock {h : Held} (hr : r.type = .unlock) (hp : h.update r p ≠ none) :
    h p ≠ none := by
  by_cases hc : covers r p
  · exact absurd ((if_pos hc).trans (if_pos hr)) hp
  · rwa [update, if_neg hc] at hp

variable {a : Authority}

theorem Authority.mayHold_apply (h : (a.apply r).MayHold) : r.type ≠ .unlock ∨ a.MayHold := by
  by_cases hr : r.type = .unlock
  · rcases h with ⟨p, hp⟩ | ⟨l, hl, -⟩
    · exact .inr (.inl ⟨p, Held.update_unlock hr hp⟩)
    · cases hl
  · exact .inl hr

theorem Authority.mayHold_delay (h : (a.delay r cleanup).MayHold) :
    r.type ≠ .unlock ∨ a.MayHold := by
  by_cases hr : r.type = .unlock
  · right
    rcases h with hp | ⟨l, hl, p, hp⟩
    · exact .inl hp
    · rcases List.mem_cons.mp hl with rfl | hl
      · exact .inl ⟨p, Held.update_unlock hr hp⟩
      · exact .inr ⟨l, hl, p, hp⟩
  · exact .inl hr

theorem Authority.mayHold_late (hl : l ∈ a.late)
    (h : ({ held := l.held } : Authority).MayHold) : a.MayHold := by
  rcases h with hp | ⟨l', hl', -⟩
  · exact .inr ⟨l, hl, hp⟩
  · cases hl'

/-! ## 一動作 -/

namespace LockPc

/-- authority を呼ぶところ。owner、要求、後始末ならその attempt -/
def calls : LockPc → Option (OwnerKey × PosixRange × Option Nat)
  | .setCleanup c attempt => some (c.key, fullUnlock, some attempt)
  | .setCall c => some (c.key, c.range, none)
  | .unlockCall u attempt => some (u.key, fullUnlock, some (u.expected.getD attempt))
  | _ => none

def acked : LockPc → LockPc
  | .setCleanup c _ => .setErase c
  | .unlockCall u _ => .unlockErase u
  | _ => .done none

/-- hint を見て、手放すかどうかを決めるところ -/
def checksHint : LockPc → Bool
  | .unlockCheck _ => true
  | _ => false

def succeeds : LockPc → Bool
  | .done none => true
  | _ => false

end LockPc

/-- hint と authority に触らない -/
structure Quiet (s s' : AdvisoryLocks) : Prop where
  attempts : s'.attempts = s.attempts
  next : s'.nextPosixAttempt = s.nextPosixAttempt
  authority : s'.authority = s.authority

/-- 一つの thread が行い得る一動作 -/
inductive LockMoves (busy : OwnerKey → Bool) :
    AdvisoryLocks → LockPc → AdvisoryLocks → LockPc → Prop
  | leave {s pc s' pc'} : Quiet s s' → pc'.holdsKey = none → pc.checksHint = false →
      (pc.calls.isSome && pc'.succeeds) = false → LockMoves busy s pc s' pc'
  | skip {s u} : s.attempts.lookup u.key = none ∨ u.expected ≠ none ∨ u.pendingOnly = true →
      LockMoves busy s (.unlockCheck u) s (u.after.resume none)
  | lockSet {s c} : busy c.key = false → LockMoves busy s (.setLock c) s (.setCheck c)
  | lockUnlock {s u} : busy u.key = false → LockMoves busy s (.unlockLock u) s (.unlockCheck u)
  | found {s c h} : s.attempts.lookup c.key = some h → h.cleanupPending = true →
      LockMoves busy s (.setCheck c) s (.setCleanup c h.attempt)
  | clean {s c} : LockMoves busy s (.setCheck c) s (.setMark c)
  | applied {s k r cleanup} (pc : LockPc) : pc.calls = some (k, r, cleanup) →
      LockMoves busy s pc (s.setAuthority k ((s.authority k).apply r)) pc
  | delayed {s k r cleanup} (pc : LockPc) : pc.calls = some (k, r, cleanup) →
      LockMoves busy s pc (s.setAuthority k ((s.authority k).delay r cleanup)) pc
  | ack {s k r cleanup} (pc : LockPc) : pc.calls = some (k, r, cleanup) →
      LockMoves busy s pc (s.setAuthority k ((s.authority k).apply r)) pc.acked
  | eraseSet {s c} : LockMoves busy s (.setErase c) (s.eraseHint c.key) (.setMark c)
  | eraseUnlock {s u} :
      LockMoves busy s (.unlockErase u) (s.eraseHint u.key) (u.after.resume none)
  | mark {s c} : c.range.type ≠ .unlock →
      LockMoves busy s (.setMark c) (s.markAttempt c.key c.fileHandle) (.setCall c)
  | markUnlock {s c} : c.range.type = .unlock → LockMoves busy s (.setMark c) s (.setCall c)
  | pend {s u h} : s.attempts.lookup u.key = some h → u.expected.getD h.attempt = h.attempt →
      LockMoves busy s (.unlockCheck u) (s.setHint u.key { h with cleanupPending := true })
        (.unlockCall u h.attempt)

theorem Quiet.rfl : Quiet s s := ⟨Eq.refl _, Eq.refl _, Eq.refl _⟩

theorem quiet_schedulePosixCleanup
    (h : schedulePosixCleanup s stopping = (s', spawn)) : Quiet s s' := by
  unfold schedulePosixCleanup at h
  split at h <;> cases h <;> exact ⟨rfl, rfl, rfl⟩

theorem After.holdsKey_resume (a : After) (r : Option Status) : (a.resume r).holdsKey = none := by
  cases a <;> rfl

/-- authority への呼び出し。返事が着かなければ同じ所で待つ -/
theorem LockMoves.called {a : Option (Option Status)} (hc : pc.calls = some (k, r, cleanup))
    (hpc : match a with
      | none => pc' = pc
      | some none => pc' = pc.acked
      | some (some _) => pc'.holdsKey = none ∧ pc.checksHint = false ∧ pc'.succeeds = false)
    (h : callAuthority s k r cleanup reply = (s', a)) : LockMoves busy s pc s' pc' := by
  cases reply <;> cases h <;> dsimp only at hpc
  · rw [hpc]; exact .ack pc hc
  · exact .leave .rfl hpc.1 hpc.2.1 (by simp [hpc.2.2])
  · rw [hpc]; exact .applied pc hc
  · rw [hpc]; exact .delayed pc hc
  · exact .leave .rfl hpc.1 hpc.2.1 (by simp [hpc.2.2])

theorem LockPc.exec_moves (h : pc.exec busy o s = some m) : LockMoves busy s pc m.state m.pc := by
  revert h
  fun_cases exec <;> intro h <;> (try split at h) <;> cases h <;>
    try exact .leave .rfl rfl rfl rfl
  · exact .lockSet (Bool.eq_false_of_not_eq_true ‹_›)
  · exact .found ‹_› ‹_›
  · exact .clean
  · exact .clean
  · exact .called rfl rfl ‹_›
  · exact .called rfl rfl ‹_›
  · exact .called (a := some (some _)) rfl ⟨rfl, rfl, rfl⟩ ‹_›
  · exact .eraseSet
  · exact .markUnlock ‹_›
  · exact .mark ‹_›
  · exact .called rfl rfl ‹_›
  · exact .called rfl rfl ‹_›
  · exact .called (a := some (some _)) rfl ⟨rfl, rfl, rfl⟩ ‹_›
  · exact .called (a := some (some _)) rfl ⟨rfl, rfl, rfl⟩ ‹_›
  · next hs => exact .leave (quiet_schedulePosixCleanup hs) rfl rfl rfl
  · exact .lockUnlock (Bool.eq_false_of_not_eq_true ‹_›)
  · exact .skip (.inl ‹_›)
  · next hskip =>
    refine .skip (.inr ?_)
    rcases hskip with he | hp
    · exact .inl fun hn => by simp [hn] at he
    · exact .inr hp.1
  · next u h hh hgo =>
    refine .pend hh ?_
    cases he : u.expected with
    | none => rfl
    | some a => exact of_not_not fun hne => hgo (.inl (by simpa [he] using hne))
  · exact .called rfl rfl ‹_›
  · exact .called rfl rfl ‹_›
  · exact .called (a := some (some _)) rfl ⟨rfl, rfl, rfl⟩ ‹_›
  · exact .eraseUnlock
  · next hs => exact .leave (quiet_schedulePosixCleanup hs) (After.holdsKey_resume _ _) rfl rfl
  · exact .leave ⟨rfl, rfl, rfl⟩ rfl rfl rfl
  · exact .leave ⟨rfl, rfl, rfl⟩ rfl rfl rfl

/-! ## 触らないもの -/

theorem LockPc.holdsKey_of_calls {pc : LockPc}
    (h : pc.calls = some (k, r, cleanup)) : pc.holdsKey = some k := by
  unfold calls at h
  split at h <;> cases h <;> rfl

section

variable {busy : OwnerKey → Bool} {s s' : AdvisoryLocks} {pc pc' : LockPc}

theorem AdvisoryLocks.authority_setAuthority_ne (h : k' ≠ k) :
    (s.setAuthority k a).authority k' = s.authority k' :=
  update_of_ne h _ _

@[simp]
theorem AdvisoryLocks.authority_setAuthority_self : (s.setAuthority k a).authority k = a :=
  update_self _ _ _

theorem LockMoves.frame (h : LockMoves busy s pc s' pc') (hk : pc.holdsKey ≠ some k) :
    s'.attempts.lookup k = s.attempts.lookup k ∧ s'.authority k = s.authority k := by
  have hne : ∀ {k'}, pc.holdsKey = some k' → k ≠ k' := by
    rintro k' hk' rfl
    exact hk hk'
  cases h with
  | leave hq => rw [hq.attempts, hq.authority]; exact ⟨rfl, rfl⟩
  | applied _ hc =>
    exact ⟨rfl, AdvisoryLocks.authority_setAuthority_ne (hne (LockPc.holdsKey_of_calls hc))⟩
  | delayed _ hc =>
    exact ⟨rfl, AdvisoryLocks.authority_setAuthority_ne (hne (LockPc.holdsKey_of_calls hc))⟩
  | ack _ hc =>
    exact ⟨rfl, AdvisoryLocks.authority_setAuthority_ne (hne (LockPc.holdsKey_of_calls hc))⟩
  | eraseSet => exact ⟨AList.lookup_erase_ne (hne rfl), rfl⟩
  | eraseUnlock => exact ⟨AList.lookup_erase_ne (hne rfl), rfl⟩
  | mark => exact ⟨AList.lookup_insert_ne (hne rfl), rfl⟩
  | pend => exact ⟨AList.lookup_insert_ne (hne rfl), rfl⟩
  | _ => exact ⟨rfl, rfl⟩

end

/-! ## 実行の外から見たもの -/

structure CleanupGhost where
  /-- 最後に確認の取れた `SetPosix`（手放しを除く）の attempt -/
  granted : OwnerKey → Nat := fun _ => 0
  /-- 後始末を待つ hint の立った後で、full unlock の確認が取れた -/
  acknowledged : OwnerKey → Bool := fun _ => false

def CleanupGhost.watch (g : CleanupGhost) (S : LockSystem) : LockLabel → CleanupGhost
  | .ran _ (.setCall c) (.done none) =>
    if c.range.type = .unlock then g
    else
      let hint := (S.locks.attempts.lookup c.key).getD {}
      { g with granted := update g.granted c.key hint.attempt }
  | .ran _ (.setCleanup c _) (.setErase _) =>
    { g with acknowledged := update g.acknowledged c.key true }
  | .ran _ (.unlockCall u _) (.unlockErase _) =>
    { g with acknowledged := update g.acknowledged u.key true }
  | .ran _ (.unlockCheck u) (.unlockCall _ _) =>
    { g with acknowledged := update g.acknowledged u.key false }
  | _ => g

/-! ## 不変条件 -/

def HintLocal (s : AdvisoryLocks) (g : CleanupGhost) : LockPc → Prop
  | .setCleanup c attempt => s.attempts.lookup c.key = some ⟨attempt, true⟩
  | .setCall c => c.range.type ≠ .unlock → (s.attempts.lookup c.key).isSome = true
  | .unlockCall u attempt =>
    s.attempts.lookup u.key = some ⟨attempt, true⟩ ∧ u.expected.getD attempt = attempt
  | .setErase c => ¬ (s.authority c.key).MayHold ∧ g.acknowledged c.key = true
  | .unlockErase u => ¬ (s.authority u.key).MayHold ∧ g.acknowledged u.key = true
  | _ => True

/-- hint と authority の条件 -/
structure HintShared (s : AdvisoryLocks) (g : CleanupGhost) : Prop where
  held : ∀ k, (s.authority k).MayHold → (s.attempts.lookup k).isSome = true
  attempt : ∀ k h, s.attempts.lookup k = some h →
    g.granted k ≤ h.attempt ∧ h.attempt ≤ s.nextPosixAttempt
  granted : ∀ k, g.granted k ≤ s.nextPosixAttempt
  late : ∀ k, ∀ l ∈ (s.authority k).late, ∀ a, l.cleanup = some a → g.granted k ≤ a

section

variable {β : Type} (stripe : OwnerKey → β)

structure HintInv (S : LockSystem) (g : CleanupGhost) : Prop where
  /-- 二つの thread が同じ stripe を持つことはない -/
  exclusion : Infra.AllThreads S.threads fun i p => Infra.AllThreads S.threads fun j q =>
    i ≠ j → ∀ k k', p.holdsKey = some k → q.holdsKey = some k' → stripe k ≠ stripe k'
  shared : HintShared S.locks g
  threads : Infra.AllThreads S.threads fun _ pc => HintLocal S.locks g pc

end

section

variable {busy : OwnerKey → Bool} {s s' : AdvisoryLocks} {pc pc' : LockPc} {g : CleanupGhost}
  {S : LockSystem} {i : Nat}

/-- 自分の owner の hint と authority が変わらなければ、条件は保たれる -/
theorem HintLocal.stable (h : HintLocal s g q)
    (hlookup : ∀ k, q.holdsKey = some k → s'.attempts.lookup k = s.attempts.lookup k)
    (hheld : ∀ k, q.holdsKey = some k → (s'.authority k).MayHold → (s.authority k).MayHold)
    (hack : ∀ k, q.holdsKey = some k → g'.acknowledged k = g.acknowledged k) :
    HintLocal s' g' q := by
  cases q with
  | setCleanup c attempt => exact (hlookup c.key rfl).trans h
  | setCall c =>
    intro hr
    rw [hlookup c.key rfl]
    exact h hr
  | unlockCall u attempt => exact ⟨(hlookup u.key rfl).trans h.1, h.2⟩
  | setErase c => exact ⟨fun hm => h.1 (hheld c.key rfl hm), (hack c.key rfl).trans h.2⟩
  | unlockErase u => exact ⟨fun hm => h.1 (hheld u.key rfl hm), (hack u.key rfl).trans h.2⟩
  | _ => trivial

variable {k : OwnerKey}

theorem CleanupGhost.watch_frame (hk : pc.holdsKey ≠ some k) :
    (g.watch S (.ran i pc pc')).granted k = g.granted k ∧
      (g.watch S (.ran i pc pc')).acknowledged k = g.acknowledged k := by
  have hne : ∀ {k'}, pc.holdsKey = some k' → k ≠ k' := by
    rintro k' hk' rfl
    exact hk hk'
  unfold watch
  split
  next h =>
    cases h
    split
    · exact ⟨rfl, rfl⟩
    · exact ⟨update_of_ne (hne rfl) _ _, rfl⟩
  next h => cases h; exact ⟨rfl, update_of_ne (hne rfl) _ _⟩
  next h => cases h; exact ⟨rfl, update_of_ne (hne rfl) _ _⟩
  next h => cases h; exact ⟨rfl, update_of_ne (hne rfl) _ _⟩
  next => exact ⟨rfl, rfl⟩

variable {r : PosixRange}

/-- 呼んだ後始末の attempt は、確認の取れた要求より古くない -/
theorem HintShared.cleanup_current (h : HintShared s g) (hpc : HintLocal s g pc) {a : Nat}
    (hc : pc.calls = some (k, r, some a)) : g.granted k ≤ a := by
  unfold LockPc.calls at hc
  split at hc
  next c attempt =>
    cases hc
    exact (h.attempt _ _ hpc).1
  next => cases hc
  next u attempt =>
    cases hc
    rw [hpc.2]
    exact (h.attempt _ _ hpc.1).1
  next => cases hc

theorem HintShared.hint_of_call (h : HintShared s g) (hpc : HintLocal s g pc)
    (hc : pc.calls = some (k, r, cleanup)) (hm : r.type ≠ .unlock ∨ (s.authority k).MayHold) :
    (s.attempts.lookup k).isSome = true := by
  rcases hm with hr | hm
  · unfold LockPc.calls at hc
    split at hc
    next => cases hc; exact absurd rfl hr
    next => cases hc; exact hpc hr
    next => cases hc; exact absurd rfl hr
    next => cases hc
  · exact h.held k hm

/-! ## hint と authority の条件の保存 -/

namespace HintShared

variable {k : OwnerKey}

section

variable (h : HintShared s g)
include h

theorem setAuthority (hheld : a'.MayHold → (s.attempts.lookup k).isSome = true)
    (hlate : ∀ l ∈ a'.late, ∀ a, l.cleanup = some a → g.granted k ≤ a) :
    HintShared (s.setAuthority k a') g where
  held k' hm := by
    by_cases he : k' = k
    · subst he
      rw [AdvisoryLocks.authority_setAuthority_self] at hm
      exact hheld hm
    · rw [AdvisoryLocks.authority_setAuthority_ne he] at hm
      exact h.held k' hm
  attempt := h.attempt
  granted := h.granted
  late k' l hl := by
    by_cases he : k' = k
    · subst he
      rw [AdvisoryLocks.authority_setAuthority_self] at hl
      exact hlate l hl
    · rw [AdvisoryLocks.authority_setAuthority_ne he] at hl
      exact h.late k' l hl

/-- 確認の取れた要求の後では、それより前に送られた変更は残らない -/
theorem grant (hh : s.attempts.lookup k = some hint) (hlate : (s.authority k).late = []) :
    HintShared s { g with granted := update g.granted k hint.attempt } := by
  have hself : update g.granted k hint.attempt k = hint.attempt := update_self ..
  have hother : ∀ k', k' ≠ k → update g.granted k hint.attempt k' = g.granted k' :=
    fun _ hne => update_of_ne hne _ _
  refine ⟨h.held, fun k' hint' hh' => ?_, fun k' => ?_, fun k' l hl a ha => ?_⟩ <;>
    by_cases he : k' = k
  · subst he
    obtain rfl : hint = hint' := Option.some.inj (hh.symm.trans hh')
    exact ⟨hself.le, (h.attempt k' hint hh).2⟩
  · exact (h.attempt k' hint' hh').imp_left (hother k' he).le.trans
  · subst he
    exact hself.le.trans (h.attempt k' hint hh).2
  · exact (hother k' he).le.trans (h.granted k')
  · subst he
    rw [hlate] at hl
    cases hl
  · exact (hother k' he).le.trans (h.late k' l hl a ha)

theorem erase (hfree : ¬ (s.authority k).MayHold) :
    HintShared (s.eraseHint k) g where
  held k' hm := by
    have hne : k' ≠ k := by
      rintro rfl
      exact hfree hm
    show (AList.lookup k' (AList.erase k s.attempts)).isSome = true
    rw [AList.lookup_erase_ne hne]
    exact h.held k' hm
  attempt k' hint hh := by
    by_cases he : k' = k
    · subst he
      simp [AdvisoryLocks.eraseHint] at hh
    · refine h.attempt k' hint ?_
      rw [← hh]
      exact (AList.lookup_erase_ne he).symm
  granted := h.granted
  late := h.late

theorem setHint (hlow : g.granted k ≤ hint.attempt)
    (hhigh : hint.attempt ≤ next) (hnext : s.nextPosixAttempt ≤ next) :
    HintShared { s.setHint k hint with nextPosixAttempt := next, handleOwners := owners } g where
  held k' hm := by
    show (AList.lookup k' (AList.insert k hint s.attempts)).isSome = true
    by_cases he : k' = k
    · subst he
      rw [AList.lookup_insert]
      rfl
    · rw [AList.lookup_insert_ne he]
      exact h.held k' hm
  attempt k' hint' hh := by
    change AList.lookup k' (AList.insert k hint s.attempts) = some hint' at hh
    by_cases he : k' = k
    · subst he
      rw [AList.lookup_insert] at hh
      cases hh
      exact ⟨hlow, hhigh⟩
    · rw [AList.lookup_insert_ne he] at hh
      exact (h.attempt k' hint' hh).imp_right fun hle => hle.trans hnext
  granted k' := (h.granted k').trans hnext
  late := h.late

end

end HintShared

theorem CleanupGhost.watch_leave (hfree : pc'.holdsKey = none)
    (hok : (pc.calls.isSome && pc'.succeeds) = false) : g.watch S (.ran i pc pc') = g := by
  unfold watch
  split
  next h => cases h; cases hok
  next h => cases h; cases hfree
  next h => cases h; cases hfree
  next h => cases h; cases hfree
  next => rfl

theorem CleanupGhost.watch_self (hc : pc.calls.isSome = true) : g.watch S (.ran i pc pc) = g := by
  cases pc <;> rfl

theorem HintShared.moved (h : HintShared S.locks g) (hm : LockMoves busy S.locks pc s' pc')
    (hpc : HintLocal S.locks g pc) : HintShared s' (g.watch S (.ran i pc pc')) := by
  cases hm with
  | leave hq hfree _ hok =>
    rw [CleanupGhost.watch_leave hfree hok]
    exact ⟨by rw [hq.authority, hq.attempts]; exact h.held,
      by rw [hq.attempts, hq.next]; exact h.attempt, by rw [hq.next]; exact h.granted,
      by rw [hq.authority]; exact h.late⟩
  | skip =>
    rw [CleanupGhost.watch_leave (After.holdsKey_resume _ _) rfl]
    exact h
  | applied _ hc =>
    rw [CleanupGhost.watch_self (by rw [hc]; rfl)]
    exact h.setAuthority (fun hm => h.hint_of_call hpc hc (Authority.mayHold_apply hm))
      (List.forall_mem_nil _)
  | delayed _ hc =>
    rw [CleanupGhost.watch_self (by rw [hc]; rfl)]
    refine h.setAuthority (fun hm => h.hint_of_call hpc hc (Authority.mayHold_delay hm)) ?_
    intro l hl a ha
    rcases List.mem_cons.mp hl with rfl | hl
    · cases ha
      exact h.cleanup_current hpc hc
    · exact h.late _ l hl a ha
  | @ack k r cleanup _ hc =>
    have happly : HintShared (S.locks.setAuthority k ((S.locks.authority k).apply r)) g :=
      h.setAuthority (fun hm => h.hint_of_call hpc hc (Authority.mayHold_apply hm))
        (List.forall_mem_nil _)
    unfold LockPc.calls at hc
    split at hc
    next c attempt => cases hc; exact { happly with }
    next c =>
      cases hc
      simp only [LockPc.acked, CleanupGhost.watch]
      split
      next => exact happly
      next hr =>
        obtain ⟨hint, hh⟩ := Option.isSome_iff_exists.mp (hpc hr)
        rw [hh]
        refine happly.grant hh ?_
        rw [AdvisoryLocks.authority_setAuthority_self]
        rfl
    next u => cases hc; exact { happly with }
    next => cases hc
  | eraseSet => exact h.erase hpc.1
  | eraseUnlock =>
    rw [CleanupGhost.watch_leave (After.holdsKey_resume _ _) rfl]
    exact h.erase hpc.1
  | @mark c hr =>
    refine h.setHint ?_ le_rfl (Nat.le_succ _)
    exact (h.granted c.key).trans (Nat.le_succ _)
  | @pend u hint hh he =>
    obtain ⟨hlow, hhigh⟩ := h.attempt _ _ hh
    have hset : HintShared (S.locks.setHint u.key { hint with cleanupPending := true }) g :=
      h.setHint hlow hhigh le_rfl
    exact { hset with }
  | _ => exact h

theorem HintLocal.setAuthority (hpc : HintLocal s g pc) (hc : pc.calls = some (k, r, cleanup)) :
    HintLocal (s.setAuthority k a) g pc := by
  cases pc <;> first | exact hpc | cases hc

theorem HintLocal.moved (hm : LockMoves busy S.locks pc s' pc') (hpc : HintLocal S.locks g pc) :
    HintLocal s' (g.watch S (.ran i pc pc')) pc' := by
  have hfree : ∀ {q : LockPc} {s : AdvisoryLocks} {g : CleanupGhost}, q.holdsKey = none →
      HintLocal s g q := by
    intro q s g hq
    cases q <;> trivial
  cases hm with
  | leave _ hq => exact hfree hq
  | skip => exact hfree (After.holdsKey_resume _ _)
  | lockSet => trivial
  | lockUnlock => trivial
  | @found c h hh hp =>
    rw [HintLocal, hh, ← hp]
  | clean => trivial
  | applied _ hc =>
    rw [CleanupGhost.watch_self (by rw [hc]; rfl)]
    exact hpc.setAuthority hc
  | delayed _ hc =>
    rw [CleanupGhost.watch_self (by rw [hc]; rfl)]
    exact hpc.setAuthority hc
  | ack _ hc =>
    unfold LockPc.calls at hc
    split at hc
    next c attempt =>
      cases hc
      refine ⟨?_, update_self _ _ _⟩
      rw [AdvisoryLocks.authority_setAuthority_self]
      exact Authority.not_mayHold_fullUnlock _
    next c => trivial
    next u =>
      cases hc
      refine ⟨?_, update_self _ _ _⟩
      rw [AdvisoryLocks.authority_setAuthority_self]
      exact Authority.not_mayHold_fullUnlock _
    next => cases hc
  | eraseSet => trivial
  | eraseUnlock => exact hfree (After.holdsKey_resume _ _)
  | @mark c hr =>
    intro _
    show (AList.lookup c.key (AList.insert c.key _ _)).isSome = true
    rw [AList.lookup_insert]
    rfl
  | markUnlock hr => exact fun hne => absurd hr hne
  | pend _ he => exact ⟨AList.lookup_insert _, he⟩

theorem LockMoves.holdsKey (hm : LockMoves busy s pc s' pc') (hk : pc'.holdsKey = some k) :
    pc.holdsKey = some k ∨ busy k = false := by
  cases hm with
  | leave _ hfree => rw [hfree] at hk; cases hk
  | skip => rw [After.holdsKey_resume] at hk; cases hk
  | lockSet hb => cases hk; exact .inr hb
  | lockUnlock hb => cases hk; exact .inr hb
  | ack _ hc =>
    left
    rw [LockPc.holdsKey_of_calls hc]
    unfold LockPc.calls at hc
    split at hc <;> cases hc <;> first | exact hk | cases hk
  | eraseUnlock => rw [After.holdsKey_resume] at hk; cases hk
  | _ => exact .inl hk

theorem LockRequest.holdsKey_entry (r : LockRequest) : r.entry.holdsKey = none := by
  unfold entry
  split
  · split <;> rfl
  · rfl
  · rfl

theorem HintLocal.of_free (h : pc.holdsKey = none) : HintLocal s g pc := by
  cases pc <;> trivial

end

/-! ## 一手と実行 -/

section

variable {β : Type} {stripe : OwnerKey → β} {S S' : LockSystem} {g : CleanupGhost}

variable {k : OwnerKey}

theorem LockSystem.stripe_ne_of_busy [DecidableEq β] (hb : S.busy stripe i k = false) (hne : j ≠ i)
    (hq : S.threads[j]? = some q) (hk : q.holdsKey = some k') : stripe k' ≠ stripe k := by
  intro heq
  have hmem : q ∈ S.threads.eraseIdx i := List.mem_eraseIdx_iff_getElem?.mpr ⟨j, hne, hq⟩
  have htrue : S.busy stripe i k = true :=
    List.any_eq_true.mpr ⟨q, hmem, by rw [hk]; simpa using heq⟩
  rw [hb] at htrue
  cases htrue

variable {pc pc' : LockPc}

theorem HintInv.append (h : HintInv stripe S g) (hfree : pc.holdsKey = none) :
    HintInv stripe { S with threads := S.threads ++ [pc] } g where
  exclusion := by
    refine h.exclusion.append (fun i p _ hp => hp.append (fun j q _ hpq => hpq) ?_) ?_
    · intro _ k k' _ hk'
      rw [hfree] at hk'
      cases hk'
    · intro j q _ _ k k' hk
      rw [hfree] at hk
      cases hk
  shared := h.shared
  threads := h.threads.append (fun _ _ _ hq => hq) (.of_free hfree)

/-- authority だけが変わり、持ち得るものも送られた後始末も増えない -/
theorem HintInv.setAuthority (h : HintInv stripe S g)
    (hheld : a.MayHold → (S.locks.authority k).MayHold)
    (hlate : ∀ l ∈ a.late, l ∈ (S.locks.authority k).late) :
    HintInv stripe { S with locks := S.locks.setAuthority k a } g where
  exclusion := h.exclusion
  shared := h.shared.setAuthority (fun hm => h.shared.held k (hheld hm))
    fun l hl => h.shared.late k l (hlate l hl)
  threads := by
    intro i pc hi
    refine (h.threads i pc hi).stable (fun _ _ => rfl) (fun k' _ hm => ?_) fun _ _ => rfl
    by_cases he : k' = k
    · subst he
      rw [AdvisoryLocks.authority_setAuthority_self] at hm
      exact hheld hm
    · rwa [AdvisoryLocks.authority_setAuthority_ne he] at hm

theorem HintInv.init : HintInv stripe {} {} where
  exclusion := .nil
  shared := by
    refine ⟨fun k hm => ?_, fun k hint hh => ?_, fun _ => le_rfl, fun k l hl => ?_⟩
    · rcases hm with ⟨p, hp⟩ | ⟨l, hl, -⟩
      · exact absurd rfl hp
      · cases hl
    · cases hh
    · cases hl
  threads := .nil

variable [DecidableEq β]

theorem HintInv.run (h : HintInv stripe S g)
    (hi : S.threads[i]? = some pc) (hm : LockMoves (S.busy stripe i) S.locks pc s' pc') :
    HintInv stripe { locks := s', threads := S.threads.set i pc' }
      (g.watch S (.ran i pc pc')) where
  exclusion := by
    -- 進んだ thread の新しい stripe は、ほかの thread の持つものと重ならない
    have hnew : ∀ j q, j ≠ i → S.threads[j]? = some q → ∀ k k', pc'.holdsKey = some k →
        q.holdsKey = some k' → stripe k ≠ stripe k' := by
      intro j q hne hq k k' hk hk'
      rcases hm.holdsKey hk with hold | hb
      · exact h.exclusion i pc hi j q hq hne.symm k k' hold hk'
      · exact (LockSystem.stripe_ne_of_busy hb hne hq hk').symm
    refine h.exclusion.set (fun j p hj hp hex => hex.set (fun _ _ _ _ hpq => hpq) ?_) ?_
    · intro _ k k' hk hk'
      exact (hnew j p hj hp k' k hk' hk).symm
    · refine (h.exclusion i pc hi).set (fun j q hj hq _ _ => hnew j q hj hq) ?_
      exact fun hne => absurd rfl hne
  shared := h.shared.moved hm (h.threads i pc hi)
  threads := by
    refine h.threads.set (fun j q hj hq hlocal => ?_) ((h.threads i pc hi).moved hm)
    -- ほかの thread の owner は別の stripe にあるので、触られない
    have hother : ∀ k, q.holdsKey = some k → pc.holdsKey ≠ some k :=
      fun k hk hpk => h.exclusion j q hq i pc hi hj k k hk hpk rfl
    refine hlocal.stable (fun k hk => (hm.frame (hother k hk)).1) (fun k hk hmay => ?_)
      fun k hk => (CleanupGhost.watch_frame (hother k hk)).2
    rwa [(hm.frame (hother k hk)).2] at hmay

variable {ev : LockEvent} {label : LockLabel}

theorem HintInv.step (h : HintInv stripe S g) (hs : S.step stripe ev = some (label, S')) :
    HintInv stripe S' (g.watch S label) := by
  cases ev with
  | call r =>
    cases hs
    exact h.append r.holdsKey_entry
  | run i o =>
    simp only [LockSystem.step] at hs
    split at hs
    next => cases hs
    next pc hi =>
      split at hs <;> cases hs
      next m he =>
        have hrun := h.run hi (LockPc.exec_moves he)
        split
        · exact hrun.append rfl
        · rwa [List.append_nil]
  | late k n =>
    simp only [LockSystem.step] at hs
    split at hs <;> cases hs
    next l hl =>
      exact h.setAuthority (Authority.mayHold_late (List.mem_of_getElem? hl)) (by simp)
  | fence k =>
    cases hs
    refine h.setAuthority ?_ (by simp)
    rintro (hp | ⟨l, hl, -⟩)
    · exact .inl hp
    · cases hl

/-! ## 後始末は忘れられず、やり過ぎない -/

theorem LockSystem.step_ran (hs : S.step stripe ev = some (.ran i pc pc', S')) :
    S.threads[i]? = some pc ∧ LockMoves (S.busy stripe i) S.locks pc S'.locks pc' := by
  unfold step at hs
  split at hs
  next => cases hs
  next j o =>
    split at hs
    next => cases hs
    next q hq =>
      split at hs <;> cases hs
      next m he => exact ⟨hq, LockPc.exec_moves he⟩
  next => split at hs <;> cases hs
  next => cases hs

theorem LockSystem.step_late (hs : S.step stripe ev = some (.late k l, S')) :
    l ∈ (S.locks.authority k).late := by
  unfold step at hs
  split at hs
  next => cases hs
  next =>
    split at hs
    next => cases hs
    next => split at hs <;> cases hs
  next =>
    split at hs <;> cases hs
    next hl => exact List.mem_of_getElem? hl
  next => cases hs

theorem LockSystem.step_attempts (hs : S.step stripe ev = some (label, S')) :
    (∃ i pc pc', label = .ran i pc pc') ∨ S'.locks.attempts = S.locks.attempts := by
  unfold step at hs
  split at hs
  next => cases hs; exact .inr rfl
  next =>
    split at hs
    next => cases hs
    next => split at hs <;> cases hs; exact .inl ⟨_, _, _, rfl⟩
  next => split at hs <;> cases hs; exact .inr rfl
  next => cases hs; exact .inr rfl

theorem LockMoves.keeps_pending (hm : LockMoves busy s pc s' pc') (hpc : HintLocal s g pc)
    (hh : s.attempts.lookup k = some h) (hp : h.cleanupPending = true) :
    (∃ h', s'.attempts.lookup k = some h' ∧ h'.cleanupPending = true) ∨
      g.acknowledged k = true := by
  by_cases hk : pc.holdsKey = some k
  · cases hm with
    | leave hq => rw [hq.attempts]; exact .inl ⟨h, hh, hp⟩
    | eraseSet => cases hk; exact .inr hpc.2
    | eraseUnlock => cases hk; exact .inr hpc.2
    | mark =>
      cases hk
      refine .inl ⟨_, AList.lookup_insert _, ?_⟩
      rw [hh]
      exact hp
    | pend => cases hk; exact .inl ⟨_, AList.lookup_insert _, rfl⟩
    | _ => exact .inl ⟨h, hh, hp⟩
  · rw [(hm.frame hk).1]
    exact .inl ⟨h, hh, hp⟩

theorem HintInv.keeps_pending (hinv : HintInv stripe S g) (hs : S.step stripe ev = some (label, S'))
    (hh : S.locks.attempts.lookup k = some h) (hp : h.cleanupPending = true) :
    (∃ h', S'.locks.attempts.lookup k = some h' ∧ h'.cleanupPending = true) ∨
      g.acknowledged k = true := by
  rcases LockSystem.step_attempts hs with ⟨i, pc, pc', rfl⟩ | hsame
  · obtain ⟨hi, hm⟩ := LockSystem.step_ran hs
    exact hm.keeps_pending (hinv.threads i pc hi) hh hp
  · rw [hsame]
    exact .inl ⟨h, hh, hp⟩

theorem LockMoves.lookup_of_skip (hm : LockMoves busy s (.unlockCheck u) s' (.done none))
    (he : u.expected = none) (hp : u.pendingOnly = false) : s.attempts.lookup u.key = none := by
  generalize hpc' : LockPc.done none = pc' at hm
  cases hm with
  | leave _ _ hchecks => cases hchecks
  | skip hskip =>
    rcases hskip with hnone | hexp | hpend
    · exact hnone
    · exact absurd he hexp
    · rw [hp] at hpend
      cases hpend
  | applied _ hc => cases hc
  | delayed _ hc => cases hc
  | ack _ hc => cases hc
  | pend => cases hpc'

/--
POSIX lock の後始末は忘れられず、やり過ぎない。どの実行のどの一手についても、

* authority がこの mount の owner の範囲を持ち得るなら、その owner の hint がある。したがって FLUSH が
  手放しを送らずに済ますのは、何も持ち得ないときだけである
* `cleanup_pending` の hint は、それが立った後の full unlock の確認が取れるまで残る
* 後始末が authority に働くとき（遅れて実行されるときも）、始めたときの attempt は、確認の取れた
  最後の `SetPosix` のものより古くない
-/
theorem posix_cleanup_exact (stripe : OwnerKey → β) (evs : List LockEvent) :
    let r := Infra.runWith (LockSystem.step stripe) CleanupGhost.watch ({}, {}) evs
    (∀ k, (r.1.locks.authority k).MayHold → (r.1.locks.attempts.lookup k).isSome = true) ∧
    ∀ ev label S', r.1.step stripe ev = some (label, S') →
      (∀ i ino owner, label = .ran i (.unlockCheck { key := ⟨ino, owner⟩ }) (.done none) →
        ¬ (r.1.locks.authority ⟨ino, owner⟩).MayHold) ∧
      (∀ k h, r.1.locks.attempts.lookup k = some h → h.cleanupPending = true →
        (∃ h', S'.locks.attempts.lookup k = some h' ∧ h'.cleanupPending = true) ∨
          r.2.acknowledged k = true) ∧
      (∀ i pc pc' k req a, label = .ran i pc pc' → pc.calls = some (k, req, some a) →
        r.2.granted k ≤ a) ∧
      ∀ k l a, label = .late k l → l.cleanup = some a → r.2.granted k ≤ a := by
  intro r
  have hinv : HintInv stripe r.1 r.2 :=
    Infra.runWith_always _ _ (fun _ _ _ _ _ h hs => h.step hs) _ .init
  clear_value r
  refine ⟨hinv.shared.held, fun ev label S' hs => ⟨?_, ?_, ?_, ?_⟩⟩
  · rintro i ino owner rfl hmay
    have hnone := (LockSystem.step_ran hs).2.lookup_of_skip rfl rfl
    have hsome := hinv.shared.held _ hmay
    rw [hnone] at hsome
    cases hsome
  · intro k h hh hp
    exact hinv.keeps_pending hs hh hp
  · rintro i pc pc' k req a rfl hc
    exact hinv.shared.cleanup_current (hinv.threads i pc (LockSystem.step_ran hs).1) hc
  · rintro k l a rfl ha
    exact hinv.shared.late k l (LockSystem.step_late hs) a ha

/-- 範囲を得た owner の FLUSH が送った full unlock が、実行されないまま残っている -/
def flushInFlight : List LockEvent :=
  [.call (.setPosix 1 7 { start := 0, len := 10, kind := .wrlck } false none),
    .run 0 {}, .run 0 {}, .run 0 {}, .run 0 {},
    .call (.unlockPosixOwner 1 7), .run 1 {}, .run 1 {}, .run 1 { reply := .delayed }]

/-- その full unlock の確認が取れて hint が消えた後の、二度目の FLUSH -/
def flushAgain : List LockEvent :=
  flushInFlight ++ [.run 1 {}, .run 1 {}, .call (.unlockPosixOwner 1 7), .run 2 {}]

theorem posix_cleanup_exact_flush :
    let stripe : OwnerKey → Nat := fun k => k.owner
    let r := Infra.runWith (LockSystem.step stripe) CleanupGhost.watch ({}, {}) flushInFlight
    let r' := Infra.runWith (LockSystem.step stripe) CleanupGhost.watch ({}, {}) flushAgain
    ((r.1.locks.authority ⟨1, 7⟩).held 0 = some .write ∧
      (r.1.locks.attempts.lookup ⟨1, 7⟩).isSome = true) ∧
    (∃ l S', r.1.step stripe (.late ⟨1, 7⟩ 0) = some (.late ⟨1, 7⟩ l, S') ∧ l.cleanup = some 1 ∧
      r.2.granted ⟨1, 7⟩ ≤ 1 ∧
      ((∃ h', S'.locks.attempts.lookup ⟨1, 7⟩ = some h' ∧ h'.cleanupPending = true) ∨
        r.2.acknowledged ⟨1, 7⟩ = true)) ∧
    ¬ (r'.1.locks.authority ⟨1, 7⟩).MayHold := by
  intro stripe r r'
  refine ⟨⟨rfl, ?_⟩, ⟨_, _, rfl, rfl, ?_, ?_⟩, ?_⟩
  · refine (posix_cleanup_exact stripe flushInFlight).1 ⟨1, 7⟩ (.inl ⟨0, ?_⟩)
    show some PosixType.write ≠ none
    exact Option.some_ne_none _
  · exact ((posix_cleanup_exact stripe flushInFlight).2 (.late ⟨1, 7⟩ 0) _ _ rfl).2.2.2
      ⟨1, 7⟩ _ 1 rfl rfl
  · exact ((posix_cleanup_exact stripe flushInFlight).2 (.late ⟨1, 7⟩ 0) _ _ rfl).2.1
      ⟨1, 7⟩ ⟨1, true⟩ rfl rfl
  · exact ((posix_cleanup_exact stripe flushAgain).2 (.run 2 {}) _ _ rfl).1 2 1 7 rfl

end

end SwordFS.Fuse
