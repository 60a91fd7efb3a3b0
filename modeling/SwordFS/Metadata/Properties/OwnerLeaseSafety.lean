import SwordFS.Metadata.Properties.OwnerLeaseStep

/-!
# lock owner の lease は Redis の key より先に切れる

`CanGrant` が true を返すとき、その generation の key は
標本の時刻から safety margin を過ぎるまで残る。
-/

namespace SwordFS.Metadata.Lock

open Infra OwnerLease

variable {ι κ : Type} {S : LeaseSystem ι κ}

/-! ## 全体の一歩 -/

theorem SystemOk.net_step (h : SystemOk S) (hN : NetOk N')
    (hk : ∀ i, Keeps (S.leases i) S.net N') : SystemOk { S with net := N' } :=
  ⟨hN, fun i => (hk i).leaseOk (h.lease i), h.distinct⟩

theorem systemOk_initial (now : Int) (store : LockStore) (expiry : Nat → Option Int)
    (timing : ι → LeaseTiming) (offset : ι → Int) :
    SystemOk (LeaseSystem.initial now store expiry timing offset : LeaseSystem ι κ) where
  net := ⟨fun _ _ => ⟨rfl, rfl⟩, fun _ _ => rfl, fun _ _ h => by cases h⟩
  lease i := ⟨fun _ => rfl, fun h => absurd rfl h, fun h => (by cases h), fun h => (by cases h),
    fun _ => trivial, fun _ _ h => (by cases h), fun _ h => (by cases h)⟩
  distinct _ _ _ h := by cases h

variable [DecidableEq ι]

theorem SystemOk.put (h : SystemOk S)
    (hr : LeaseStep S.net (S.leases i) r) : SystemOk (S.put i r) where
  net := hr.net
  lease j := by
    rcases eq_or_ne j i with rfl | hne
    · simpa [LeaseSystem.put] using hr.own
    · simp only [LeaseSystem.put, Function.update_of_ne hne]
      exact hr.others _ (h.lease j) fun g hg hg' => hne (h.distinct j i g hg' hg)
  distinct := by
    have key : ∀ j g, j ≠ i → r.1.owned = some g → (S.leases j).owned ≠ some g := by
      intro j g hne hg hg'
      rcases hr.owned g hg with h1 | h1
      · exact hne (h.distinct j i g hg' h1)
      · exact h1 ((h.lease j).allocated g hg')
    intro j k g hj hk
    simp only [LeaseSystem.put, Function.update_apply] at hj hk
    split at hj <;> split at hk
    · next h1 h2 => exact h1.trans h2.symm
    · next h1 h2 => exact absurd hk (key k g h2 hj)
    · next h1 h2 => exact absurd hj (key j g h1 hk)
    · exact h.distinct j k g hj hk

theorem SystemOk.quiet (h : SystemOk S)
    (q : Quiet S.net (S.leases i) L') : SystemOk (S.put i (L', S.net)) :=
  h.put (.quiet h.net q)

variable [DecidableEq κ]

theorem SystemOk.step (h : SystemOk S) (e : LeaseEvent ι κ) : SystemOk (S.step e) := by
  cases e with
  | tick d =>
    refine h.net_step ⟨h.net.fresh, h.net.once, h.net.allocated⟩ fun i => ?_
    have hd : S.net.now ≤ S.net.now + d := Int.le_add_of_nonneg_right (Int.natCast_nonneg d)
    exact keeps_of_untouched (h.lease i).phase hd (le_refl _) (fun _ h => h)
      (fun _ _ => rfl) (fun _ _ => ⟨rfl, rfl⟩) fun _ _ h _ => h
  | execute n => exact h.net_step (h.net.execute n) fun i => keeps_execute (h.lease i) n
  | lateAllocate => exact h.net_step h.net.commit fun i => keeps_commit (h.lease i).phase
  | register i => exact h.quiet (h.lease i).register
  | renew i => exact h.quiet (h.lease i).renew
  | revoke i => exact h.quiet (h.lease i).revoke
  | heartbeatExit i => exact h.quiet (h.lease i).heartbeatExit
  | revokeDelete i => exact h.put (leaseStep_revokeDelete h.net (h.lease i))
  | advance i readable reply =>
    exact h.put (leaseStep_advance h.net (h.lease i) readable reply)
  | call i k g => exact h.quiet ((h.lease i).call k g)
  | probe i k readable => exact h.quiet ((h.lease i).probe k readable)

theorem SystemOk.moves_step (h : SystemOk S) (e : LeaseEvent ι κ) (j : ι) :
    Moves (S.leases j) ((S.step e).leases j) := by
  have hput : ∀ i r, Moves (S.leases i) (r : OwnerLease κ × LeaseNet).1 →
      Moves (S.leases j) ((S.put i r).leases j) := by
    intro i r m
    rcases eq_or_ne j i with rfl | hne
    · simpa [LeaseSystem.put] using m
    · simpa [LeaseSystem.put, Function.update_of_ne hne] using Moves.refl _
  cases e with
  | tick | execute | lateAllocate => exact .refl _
  | register i => exact hput i _ (h.lease i).register.moves
  | renew i => exact hput i _ (h.lease i).renew.moves
  | revoke i => exact hput i _ (h.lease i).revoke.moves
  | heartbeatExit i => exact hput i _ (h.lease i).heartbeatExit.moves
  | revokeDelete i => exact hput i _ (leaseStep_revokeDelete h.net (h.lease i)).moves
  | advance i readable reply =>
    exact hput i _ (leaseStep_advance h.net (h.lease i) readable reply).moves
  | call i k g => exact hput i _ ((h.lease i).call k g).moves
  | probe i k readable => exact hput i _ ((h.lease i).probe k readable).moves

theorem SystemOk.run (h : SystemOk S) (events : List (LeaseEvent ι κ)) :
    SystemOk (S.run events) := by
  induction events generalizing S with
  | nil => exact h
  | cons e events ih => exact ih (h.step e)

theorem SystemOk.moves_run (h : SystemOk S) (events : List (LeaseEvent ι κ)) (j : ι) :
    Moves (S.leases j) ((S.run events).leases j) := by
  induction events generalizing S with
  | nil => exact .refl _
  | cons e events ih => exact (h.moves_step e j).trans (ih (h.step e))

/--
どの実行でも次が成り立つ。

* `CanGrant(g)` が時刻 `t` の標本で true を返すなら、`t` は過去の local の時刻であり、
  Redis には `g` の key があって、その期限は `t` から safety margin を過ぎるまで来ない
* 一度 terminal になった lease の `CanGrant` は、その後どう進んでも true を返さない
* generation を公開した lease は、互いに違う generation を持つ
-/
theorem owner_lease_safe (now : Int) (store : LockStore) (expiry : Nat → Option Int)
    (timing : ι → LeaseTiming) (offset : ι → Int) (events : List (LeaseEvent ι κ)) :
    let S := (LeaseSystem.initial now store expiry timing offset : LeaseSystem ι κ).run events
    (∀ i k g t, S.Grants i k g t →
      t ≤ S.net.now + offset i ∧
      ∃ e, S.net.expiry g = some e ∧ t + (timing i).marginNs ≤ e + offset i) ∧
    (∀ i, (S.leases i).state = .terminal →
      ∀ later k g t, ¬ (S.run later).Grants i k g t) ∧
    ∀ i j, (S.leases i).generation ≠ 0 → (S.leases i).generation = (S.leases j).generation →
      i = j := by
  intro S
  have h0 := systemOk_initial now store expiry timing offset (ι := ι) (κ := κ)
  have h : SystemOk S := h0.run events
  refine ⟨?_, ?_, ?_⟩
  · rintro i k g t ⟨hk, ha⟩
    have m := h0.moves_run events i
    have hp := (h.lease i).probes k
    rw [hk] at hp
    obtain ⟨h1, e, h2, h3, -⟩ := hp.2 ha
    have ht : (S.leases i).timing = timing i := m.timing
    have ho : (S.leases i).offset = offset i := m.offset
    rw [ht, ho] at h3
    rw [ho] at h1
    exact ⟨h1, e, h2, h3⟩
  · rintro i hi later k g t ⟨-, ha⟩
    have := (h.moves_run later i).terminal hi
    rw [ha] at this
    cases this
  · intro i j hi hij
    have h1 := owned_of_generation (h.lease i).phase hi
    have h2 := owned_of_generation (h.lease j).phase (hij ▸ hi)
    exact h.distinct i j _ h1 (by rw [h2, hij])

/-- 空の volume に登録した lease が、時刻 2000 に `CanGrant(1)` を最後の読みまで進める実行 -/
def grantingRun : List (LeaseEvent Unit Unit) :=
  [.register (), .advance () true .arrives, .advance () true .arrives, .advance () true .arrives,
    .tick 1000, .execute 0, .tick 1000] ++
    List.replicate 6 (.advance () true .arrives) ++
    .call () () 1 :: List.replicate 4 (.probe () (some ()) true)

example :
    ((LeaseSystem.initial 0 formattedLocks (fun _ => none) (fun _ => {}) (fun _ => 0)).run
      grantingRun).Grants () (some ()) 1 2000 := by
  constructor <;> decide +kernel

end SwordFS.Metadata.Lock
