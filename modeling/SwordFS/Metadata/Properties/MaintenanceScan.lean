import Mathlib.Data.List.Perm.Basic
import SwordFS.Metadata.Redis.MaintenanceScan

/-!
# 保守の走査は取りこぼさない

周回の途中では、visitor が OK を返した要素、頁の残り、cursor の先に残る要素を合わせると
hash の要素にちょうど一致する（`Accounts`）。頁を読む一手と visitor を呼ぶ一手がこれを保つので、
中断と失敗がどう並んでも、周回の終わりにはすべての要素が一度ずつ訪れられている。
-/

namespace SwordFS.Metadata.Redis

open SwordFS.Infra

variable {α : Type}

namespace Scanner

/-- 訪れた要素とこれから訪れる要素を合わせると、hash の要素になる -/
def Accounts (hash : HashScan Status α) (s : Scanner α) : Prop :=
  (s.accepted ++ s.buffered ++ hash.after s.cursor).Perm hash.items

/-- 呼び出しの間に保たれる約束。周回の外では何も訪れておらず、周回の中では過不足が無い -/
structure Resumes (hash : HashScan Status α) (s : Scanner α) : Prop where
  idle : s.Idle → s.accepted = []
  busy : ¬ s.Idle → s.Accounts hash

theorem Resumes.fresh (hash : HashScan Status α) : Resumes hash {} where
  idle _ := rfl
  busy h := absurd ⟨rfl, rfl⟩ h

variable {s : Scanner α}

theorem buffered_eq_nil : s.buffered = [] ↔ s.page.length ≤ s.offset :=
  List.drop_eq_nil_iff

variable {hash : HashScan Status α}

theorem Resumes.rest (h : s.Resumes hash) (hdry : s.buffered = []) :
    (s.accepted ++ hash.rest s.cursor).Perm hash.items := by
  by_cases hc : s.cursor = 0
  · rw [h.idle ⟨hc, hdry⟩, hc]
    exact List.Perm.refl _
  · have hacc := h.busy fun hi => hc hi.1
    rwa [Accounts, hdry, List.append_nil, hash.after_of_ne hc] at hacc

theorem Accounts.resumes (h : s.Accounts hash) (hbusy : ¬ s.Idle) : s.Resumes hash :=
  ⟨fun hi => absurd hi hbusy, fun _ => h⟩

theorem Accounts.complete (h : s.Accounts hash) (hidle : s.Idle) : s.accepted.Perm hash.items := by
  rwa [Accounts, hidle.1, hidle.2, HashScan.after_zero, List.append_nil, List.append_nil] at h

theorem visit_spec (visitor : Visitor α) : ∀ (limit : Nat) (s : Scanner α) {r : Result Unit}
    {s' : Scanner α}, s.visit visitor limit = (r, s') →
      s'.cursor = s.cursor ∧ s'.page = s.page ∧
      s'.accepted ++ s'.buffered = s.accepted ++ s.buffered ∧
      s'.visits ≤ s.visits + limit ∧
      (r = .ok () → s.buffered.length ≤ limit → s'.buffered = []) ∧
      (r ≠ .ok () → s'.buffered ≠ []) := by
  intro limit
  induction limit with
  | zero =>
    rintro s r s' ⟨⟩
    exact ⟨rfl, rfl, rfl, le_rfl, fun _ h => List.length_eq_zero_iff.mp (Nat.le_zero.mp h),
      fun h => absurd rfl h⟩
  | succ limit ih =>
    intro s r s' hv
    rw [visit] at hv
    split at hv
    next hnone =>
      cases hv
      have hdry := buffered_eq_nil.mpr (List.getElem?_eq_none_iff.mp hnone)
      exact ⟨rfl, rfl, rfl, Nat.le_add_right .., fun _ _ => hdry, fun h => absurd rfl h⟩
    next item hitem =>
      -- 先頭の要素を取り出した形
      have hbuf : s.buffered = item :: s.page.drop (s.offset + 1) := by
        obtain ⟨hlt, rfl⟩ := List.getElem?_eq_some_iff.mp hitem
        exact List.drop_eq_getElem_cons hlt
      split at hv
      next e _ =>
        cases hv
        refine ⟨rfl, rfl, rfl, ?_, nofun, fun _ hdry => ?_⟩
        · show s.visits + 1 ≤ s.visits + (limit + 1)
          omega
        · exact List.cons_ne_nil _ _ (hbuf.symm.trans hdry)
      next =>
        obtain ⟨hc, hp, hacc, hn, hok, herr⟩ := ih _ hv
        refine ⟨hc, hp, ?_, ?_, fun hr hl => hok hr ?_, herr⟩
        · rw [hacc, hbuf, List.append_assoc]
          rfl
        · exact hn.trans (by show s.visits + 1 + limit ≤ s.visits + (limit + 1); omega)
        · rw [hbuf, List.length_cons] at hl
          exact Nat.le_of_succ_le_succ hl

theorem visit_accounts
    (h : s.Accounts hash) (hv : s.visit visitor limit = (r, s')) : s'.Accounts hash := by
  obtain ⟨hc, -, hacc, -⟩ := visit_spec visitor limit s hv
  rwa [Accounts, hacc, hc]

end Scanner

open Scanner

/-! ## orphan の候補 -/

variable {hash : HashScan Status InodeID}

/-- 頁を読む一手。失敗しても約束は残り、成功すれば過不足の無い状態になる -/
theorem loadOrphanPage_spec (h : s.Resumes hash) (hl : loadOrphanPage hash s = (r, s')) :
    (r = .ok () → s'.Accounts hash ∧ s'.offset ≤ s'.page.length ∧
      (s'.cursor ≠ 0 → hash.rank s'.cursor + (if s.buffered = [] then 1 else 0)
        ≤ hash.rank s.cursor)) ∧
    (r ≠ .ok () → s'.Resumes hash ∧ s'.buffered = []) := by
  unfold loadOrphanPage at hl
  split at hl
  next hdry =>
    have hempty := buffered_eq_nil.mpr hdry
    have hrest := h.rest hempty
    dsimp only at hl
    split at hl
    next e hs =>
      cases hl
      refine ⟨nofun, fun _ => ⟨⟨?_, ?_⟩, rfl⟩⟩
      · rintro ⟨hc, -⟩
        exact h.idle ⟨hc, hempty⟩
      · intro hbusy
        have hc : s.cursor ≠ 0 := fun hc => hbusy ⟨hc, rfl⟩
        show (s.accepted ++ [] ++ hash.after s.cursor).Perm hash.items
        rw [List.append_nil, hash.after_of_ne hc]
        exact hrest
    next values next hs =>
      cases hl
      refine ⟨fun _ => ⟨?_, Nat.zero_le _, fun hne => ?_⟩, fun hr => absurd rfl hr⟩
      · rw [HashScan.rest_eq hs] at hrest
        show (s.accepted ++ values.insertionSort (· ≤ ·) ++ hash.after next).Perm hash.items
        refine .trans ?_ hrest
        rw [List.append_assoc]
        exact ((List.perm_insertionSort _ values).append_right _).append_left _
      · rw [if_pos hempty]
        exact hash.shrinks hs hne
  next hfull =>
    cases hl
    have hbuf : s.buffered ≠ [] := fun hnil => hfull (buffered_eq_nil.mp hnil)
    refine ⟨fun _ => ⟨h.busy fun hi => hbuf hi.2, by omega, fun _ => ?_⟩, fun hr => absurd rfl hr⟩
    rw [if_neg hbuf]
    exact le_rfl

/-- 一回の呼び出しの約束。OK なら周回が終わり、そうでなければ続きから再開できる -/
structure OrphanCall (hash : HashScan Status InodeID) (r : Result Unit) (s : Scanner InodeID) :
    Prop where
  complete : r = .ok () → s.Idle ∧ s.accepted.Perm hash.items
  resumes : r ≠ .ok () → s.Resumes hash

/-- 読んだ頁を使い切るたびに走査の残りは減るので、fuel が足りれば loop は終わる -/
theorem visitOrphansLoop_spec :
    ∀ {fuel : Nat} {s : Scanner InodeID}, s.Resumes hash →
      hash.rank s.cursor + (if s.buffered = [] then 1 else 2) ≤ fuel →
      ∃ r s', visitOrphansLoop hash visitor fuel s = some (r, s') ∧ OrphanCall hash r s' := by
  intro fuel
  induction fuel with
  | zero =>
    intro s _ hfuel
    split at hfuel <;> omega
  | succ fuel ih =>
    intro s h hfuel
    rw [visitOrphansLoop]
    rcases hl : loadOrphanPage hash s with ⟨r, s₁⟩
    obtain ⟨hok, herr⟩ := loadOrphanPage_spec h hl
    rcases r with e | ⟨⟩
    · exact ⟨_, _, rfl, nofun, fun _ => (herr nofun).1⟩
    · obtain ⟨hacc, hoff, hrank⟩ := hok rfl
      dsimp only
      split
      next hlast =>
        -- 最後の頁が空だった
        have hidle : s₁.Idle := ⟨hlast.2, by rw [buffered, hlast.1, List.drop_nil]⟩
        exact ⟨_, _, rfl, fun _ => ⟨hidle, hacc.complete hidle⟩, fun hr => absurd rfl hr⟩
      next =>
        rcases hv : s₁.visit visitor s₁.page.length with ⟨r, s₂⟩
        obtain ⟨hc, hp, hmove, -, hdone, habort⟩ := visit_spec visitor _ s₁ hv
        have hacc₂ := visit_accounts hacc hv
        rcases r with e | ⟨⟩
        · exact ⟨_, _, rfl, nofun, fun _ => hacc₂.resumes fun hi => habort nofun hi.2⟩
        · have hdry : s₂.buffered = [] :=
            hdone rfl (by rw [buffered, List.length_drop]; exact Nat.sub_le ..)
          dsimp only
          split
          next hzero =>
            refine ⟨_, _, rfl, fun _ => ⟨⟨hzero, rfl⟩, ?_⟩, fun hr => absurd rfl hr⟩
            exact hacc₂.complete ⟨hzero, hdry⟩
          next hne =>
            refine ih (hacc₂.resumes fun hi => hne hi.1) ?_
            have hshrink := hrank (hc ▸ hne)
            rw [if_pos hdry, hc]
            split at hfuel
            next hb => rw [if_pos hb] at hshrink; omega
            next hb => rw [if_neg hb] at hshrink; omega

theorem visitOrphanCandidates_spec (visitor : Visitor InodeID) (h : s.Resumes hash) :
    ∃ r s', visitOrphanCandidates hash visitor s = some (r, s') ∧ OrphanCall hash r s' :=
  visitOrphansLoop_spec h (by split <;> omega)

/-- `n` 回の呼び出しの後の走査。OK を返した呼び出しの後に新しい周回が始まる -/
def orphanRun (hash : HashScan Status InodeID) (visitor : Visitor InodeID) : Nat → Scanner InodeID
  | 0 => {}
  | n + 1 =>
    match visitOrphanCandidates hash visitor (orphanRun hash visitor n) with
    | some (.ok (), s) => { s with accepted := [] }
    | some (.error _, s) => s
    | none => orphanRun hash visitor n

theorem orphanRun_resumes (hash : HashScan Status InodeID) (visitor : Visitor InodeID) (n : Nat) :
    (orphanRun hash visitor n).Resumes hash := by
  induction n with
  | zero => exact .fresh hash
  | succ n ih =>
    obtain ⟨r, s', hcall, hspec⟩ := visitOrphanCandidates_spec visitor ih
    rw [orphanRun, hcall]
    rcases r with e | ⟨⟩
    · exact hspec.resumes nofun
    · have hidle := (hspec.complete rfl).1
      exact ⟨fun _ => rfl, fun hbusy => absurd hidle hbusy⟩

/-! ## 未完の削除 -/

theorem loadPendingPage_spec {hash : HashScan Status α} {maxItems : Nat} {s s' : Scanner α}
    {r : Result Unit} (h : s.Resumes hash) (hl : loadPendingPage hash maxItems s = (r, s')) :
    s'.visits = s.visits ∧ (r = .ok () → s'.Accounts hash) ∧ (r ≠ .ok () → s'.Resumes hash) := by
  unfold loadPendingPage at hl
  split at hl
  next hdry =>
    split at hl
    next e _ =>
      cases hl
      exact ⟨rfl, nofun, fun _ => { h with }⟩
    next values next hs =>
      cases hl
      refine ⟨rfl, fun _ => ?_, fun hr => absurd rfl hr⟩
      have hrest := h.rest (buffered_eq_nil.mpr hdry)
      rwa [HashScan.rest_eq hs, ← List.append_assoc] at hrest
  next hfull =>
    cases hl
    exact ⟨rfl, fun _ => h.busy fun hi => hfull (buffered_eq_nil.mp hi.2), fun hr => absurd rfl hr⟩

theorem dropDrained_buffered (s : Scanner α) : (dropDrained s).buffered = s.buffered := by
  unfold dropDrained
  split
  next hdry => exact (buffered_eq_nil.mpr hdry).symm
  next => rfl

theorem dropDrained_page (s : Scanner α) :
    (dropDrained s).page = [] ↔ (dropDrained s).buffered = [] := by
  unfold dropDrained
  split
  next => exact Iff.rfl
  next hfull =>
    rw [buffered_eq_nil]
    refine ⟨fun hnil => ?_, fun hle => absurd hle hfull⟩
    rw [hnil]
    exact Nat.zero_le _

/-- 一回の呼び出しの約束 -/
structure PendingCall (hash : HashScan Status α) (r : Result Bool) (s : Scanner α) : Prop where
  more : ∀ {more}, r = .ok more → (more = false ↔ s.Idle)
  accounts : ∀ {more}, r = .ok more → s.Accounts hash
  resumes : (∀ more, r ≠ .ok more) → s.Resumes hash

theorem visitPendingDeletesBatch_spec {hash : HashScan Status α} (h : s.Resumes hash)
    (hcall : visitPendingDeletesBatch hash visitor maxItems s = (r, s')) :
    PendingCall hash r s' ∧ s'.visits ≤ s.visits + maxItems := by
  unfold visitPendingDeletesBatch at hcall
  split at hcall
  next =>
    cases hcall
    exact ⟨⟨nofun, nofun, fun _ => h⟩, Nat.le_add_right ..⟩
  next =>
    rcases hl : loadPendingPage hash maxItems s with ⟨r₁, s₁⟩
    obtain ⟨hvisits, hok, herr⟩ := loadPendingPage_spec h hl
    rw [hl] at hcall
    rcases r₁ with e | ⟨⟩
    · cases hcall
      exact ⟨⟨nofun, nofun, fun _ => herr nofun⟩, hvisits ▸ Nat.le_add_right ..⟩
    · dsimp only at hcall
      rcases hv : s₁.visit visitor maxItems with ⟨r₂, s₂⟩
      obtain ⟨-, -, -, hn, -, habort⟩ := visit_spec visitor _ s₁ hv
      have hacc := visit_accounts (hok rfl) hv
      rw [hv] at hcall
      rw [hvisits] at hn
      rcases r₂ with e | ⟨⟩
      · cases hcall
        exact ⟨⟨nofun, nofun, fun _ => hacc.resumes fun hi => habort nofun hi.2⟩, hn⟩
      · cases hcall
        have hsame : ∀ f : Scanner α → Nat, (∀ t, f { t with page := [], offset := 0 } = f t) →
            f (dropDrained s₂) = f s₂ := by
          intro f hf
          unfold dropDrained
          split
          · exact hf _
          · rfl
        refine ⟨⟨?_, ?_, fun hr => absurd rfl (hr _)⟩, ?_⟩
        · rintro more ⟨⟩
          rw [Bool.or_eq_false_iff, Bool.not_eq_false', List.isEmpty_iff, bne_eq_false_iff_eq,
            dropDrained_page, and_comm]
          rfl
        · rintro more ⟨⟩
          rw [Accounts, dropDrained_buffered, hsame Scanner.cursor fun _ => rfl]
          have haccepted : (dropDrained s₂).accepted = s₂.accepted := by
            unfold dropDrained
            split <;> rfl
          rw [haccepted]
          exact hacc
        · rw [hsame Scanner.visits fun _ => rfl]
          exact hn

/-- batch の列の後の走査。`has_more` が false になった呼び出しの後に新しい周回が始まる -/
def pendingRun (hash : HashScan Status α) (visitor : Visitor α) : List Nat → Scanner α → Scanner α
  | [], s => s
  | maxItems :: batches, s =>
    match visitPendingDeletesBatch hash visitor maxItems s with
    | (.ok false, s) => pendingRun hash visitor batches { s with accepted := [] }
    | (_, s) => pendingRun hash visitor batches s

theorem pendingRun_resumes {hash : HashScan Status α} (visitor : Visitor α)
    (h : s.Resumes hash) : (pendingRun hash visitor batches s).Resumes hash := by
  induction batches generalizing s with
  | nil => exact h
  | cons maxItems batches ih =>
    rw [pendingRun]
    rcases hcall : visitPendingDeletesBatch hash visitor maxItems s with ⟨r, s'⟩
    obtain ⟨hspec, -⟩ := visitPendingDeletesBatch_spec h hcall
    rcases r with e | more
    · exact ih (hspec.resumes nofun)
    · have hidle := hspec.more rfl
      cases more with
      | false => exact ih ⟨fun _ => rfl, fun hbusy => absurd (hidle.mp rfl) hbusy⟩
      | true => exact ih ((hspec.accounts rfl).resumes fun hi => nomatch hidle.mpr hi)

/-! ## 周回 -/

/--
変わらない hash の上で、中断、読み取りの失敗、batch の大きさがどう並んでも、二つの走査は
周回ごとにすべての要素をちょうど一度ずつ訪れる。周回の途中でも重複は無い。
-/
theorem maintenance_scans_resume (orphans : HashScan Status InodeID) (deletes : HashScan Status α)
    (orphanVisitor : Visitor InodeID) (deleteVisitor : Visitor α) :
    (∀ calls, ∃ r s', visitOrphanCandidates orphans orphanVisitor
        (orphanRun orphans orphanVisitor calls) = some (r, s') ∧
      (r = .ok () → s'.Idle ∧ s'.accepted.Perm orphans.items) ∧
      (r ≠ .ok () → s'.accepted.Subperm orphans.items)) ∧
    (∀ (batches : List Nat) (maxItems : Nat), ∃ r s',
      visitPendingDeletesBatch deletes deleteVisitor maxItems
          (pendingRun deletes deleteVisitor batches {}) = (r, s') ∧
      s'.visits ≤ (pendingRun deletes deleteVisitor batches {}).visits + maxItems ∧
      (∀ more, r = .ok more → (more = false ↔ s'.Idle)) ∧
      (r = .ok false → s'.accepted.Perm deletes.items) ∧
      (r ≠ .ok false → s'.accepted.Subperm deletes.items)) := by
  have hsub : ∀ {β : Type} {hash : HashScan Status β} {s : Scanner β}, s.Resumes hash →
      s.accepted.Subperm hash.items := by
    intro β hash s h
    by_cases hi : s.Idle
    · rw [h.idle hi]
      exact List.nil_subperm
    · refine List.Subperm.trans (List.Sublist.subperm ?_) (h.busy hi).subperm
      rw [List.append_assoc]
      exact List.sublist_append_left ..
  refine ⟨fun calls => ?_, fun batches maxItems => ?_⟩
  · obtain ⟨r, s', hcall, hspec⟩ :=
      visitOrphanCandidates_spec orphanVisitor (orphanRun_resumes orphans orphanVisitor calls)
    exact ⟨r, s', hcall, hspec.complete, fun hr => hsub (hspec.resumes hr)⟩
  · rcases hcall : visitPendingDeletesBatch deletes deleteVisitor maxItems
      (pendingRun deletes deleteVisitor batches {}) with ⟨r, s'⟩
    obtain ⟨hspec, hvisits⟩ :=
      visitPendingDeletesBatch_spec (pendingRun_resumes deleteVisitor (.fresh deletes)) hcall
    refine ⟨r, s', rfl, hvisits, fun _ => hspec.more, ?_, fun hr => ?_⟩
    · intro hr
      exact (hspec.accounts hr).complete ((hspec.more hr).mp rfl)
    · rcases r with e | more
      · exact hsub (hspec.resumes nofun)
      · cases more with
        | false => exact absurd rfl hr
        | true => exact hsub ((hspec.accounts rfl).resumes fun hi => nomatch (hspec.more rfl).mpr hi)

end SwordFS.Metadata.Redis
