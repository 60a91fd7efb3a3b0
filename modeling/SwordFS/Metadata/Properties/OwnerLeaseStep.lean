import SwordFS.Metadata.Properties.LockTxn
import SwordFS.Metadata.Properties.OwnerLeaseInvariant

/-!
# lock owner の lease の一歩

`CanGrant` と、`mutex_` を持つ呼び出しの一歩が、lease の不変条件を保つことを示す。
command を送らない一歩は `Quiet`、送るものと generation を取るものも含めた一歩は
`LeaseStep` にまとめる。
-/

namespace SwordFS.Metadata.Lock

open Infra OwnerLease Function

variable {κ : Type} {N : LeaseNet} {L : OwnerLease κ}

/-! ## 一歩で変わらないこと -/

/-- 公開したものは取り消さず、terminal からは戻らない -/
structure Moves (L L' : OwnerLease κ) : Prop where
  timing : L'.timing = L.timing
  offset : L'.offset = L.offset
  generation : L.generation ≠ 0 → L'.generation = L.generation
  lifetime : L'.generation ≠ 0 → L.generation ≠ 0 ∨ 0 < L.timing.lifetimeNs
  registered : L.state ≠ .unregistered → L'.state ≠ .unregistered
  active : L.state ≠ .unregistered → L'.state = .active → L.state = .active
  revoking : L'.revoking = true → L.revoking = true ∨ L'.state = .terminal

namespace Moves

variable {L' : OwnerLease κ}

theorem of_eq (ht : L'.timing = L.timing) (ho : L'.offset = L.offset)
    (hg : L'.generation = L.generation) (hs : L'.state = L.state)
    (hr : L'.revoking = L.revoking) : Moves L L' :=
  ⟨ht, ho, fun _ => hg, fun h => .inl (hg ▸ h), fun h => hs ▸ h, fun _ h => hs ▸ h,
    fun h => .inl (hr ▸ h)⟩

section

variable (m : Moves L L')
include m

theorem terminal (h : L.state = .terminal) : L'.state = .terminal := by
  have h1 := m.registered (by simp [h])
  have h2 : L'.state ≠ .active := fun ha => by
    have := m.active (by simp [h]) ha
    simp [h] at this
  cases hs : L'.state <;> simp_all

theorem published (h : L.Published g) : L'.Published g :=
  ⟨m.registered h.1, by rw [m.generation (generation_ne_of_published h), h.2.1], h.2.2⟩

theorem covered : Covered N L' g x ↔ Covered N L g x := by
  simp only [Covered, m.timing, m.offset]

theorem probeOk (h : ProbeOk N L p) : ProbeOk N L' p := by
  cases p with
  | idle | generation => trivial
  | state g =>
    obtain ⟨rfl, h2⟩ := h
    exact ⟨m.generation h2, h2⟩
  | clock g => exact m.published h
  | cutoff g t => exact ⟨m.published h.1, by rw [m.offset]; exact h.2⟩
  | final g t =>
    refine ⟨m.published h.1, fun hs => ?_⟩
    rw [m.offset, m.timing, m.covered]
    exact h.2 (m.active h.1.1 hs)
  | returned granted =>
    intro hg
    have hp := m.published (h hg)
    rwa [← hp.2.1] at hp

theorem leaseOk (h : LeaseOk N L) (hprobes : L'.probes = L.probes)
    (hphase : PhaseOk N L')
    (hactive : L'.state = .active → L'.generation ≠ 0 ∧ CutoffOk N L' L'.generation L'.cutoff)
    (howned : ∀ g, L'.owned = some g → L.owned = some g)
    (hwait : ∀ g send n, L.phase = .registerWait g send n →
      L'.phase = L.phase ∨ L'.owned ≠ some g ∨ N.sent n = none) : LeaseOk N L' where
  phase := hphase
  lifetime hg := by
    rw [m.timing]
    exact (m.lifetime hg).elim h.lifetime id
  revoking hr := (m.revoking hr).elim (fun h1 => m.terminal (h.revoking h1)) id
  active := hactive
  probes k := by rw [hprobes]; exact m.probeOk (h.probes k)
  allocated g hg := h.allocated g (howned g hg)
  commands n c hn hc := by
    have hcmd := h.commands n c hn (howned _ hc)
    cases c with
    | create g ttl =>
      obtain ⟨rfl, send, hph⟩ := hcmd
      refine ⟨by rw [m.timing], send, ?_⟩
      rcases hwait g send n hph with h1 | h1 | h1
      · rw [h1, hph]
      · exact absurd hc h1
      · rw [h1] at hn; cases hn
    | renew g ttl => exact hcmd.trans (by rw [m.timing])
    | revoke g => exact m.terminal hcmd

theorem leaseOk_send (h : LeaseOk N L)
    (hprobes : L'.probes = L.probes) (hphase : PhaseOk (N.send c) L')
    (hactive : L'.state = .active →
      L.state = .active ∧ L'.generation = L.generation ∧ L'.cutoff = L.cutoff)
    (howned : ∀ g, L'.owned = some g → L.owned = some g)
    (hwait : ∀ g send n, L.phase ≠ .registerWait g send n)
    (hc : CommandOk L' N.serial c) : LeaseOk (N.send c) L' where
  phase := hphase
  lifetime hg := by
    rw [m.timing]
    exact (m.lifetime hg).elim h.lifetime id
  revoking hr := (m.revoking hr).elim (fun h1 => m.terminal (h.revoking h1)) id
  active hs := by
    obtain ⟨h1, h2, h3⟩ := hactive hs
    rw [h2, h3, CutoffOk, m.timing, m.covered]
    exact h.active h1
  probes k := by
    rw [hprobes]
    have hp : ProbeOk (N.send c) L (L.probes k) := h.probes k
    exact m.probeOk hp
  allocated g hg := h.allocated g (howned g hg)
  commands n d hn hd := by
    simp only [LeaseNet.send] at hn
    rcases eq_or_ne n N.serial with rfl | hne
    · rw [update_self] at hn
      cases hn
      exact hc
    · rw [update_of_ne hne] at hn
      have hcmd := h.commands n d hn (howned _ hd)
      cases d with
      | create g ttl =>
        obtain ⟨-, send, hph⟩ := hcmd
        exact absurd hph (hwait g send n)
      | renew g ttl => exact hcmd.trans (by rw [m.timing])
      | revoke g => exact m.terminal hcmd

end

end Moves

/-- 現在地だけが変わり、公開した generation しか持たないところへ行く -/
theorem owned_of_enter (L' : OwnerLease κ) (h : PhaseOk N L) (hg : L'.generation = L.generation)
    (ho : L'.owned = if L'.generation = 0 then none else some L'.generation) (g : Nat)
    (hg' : L'.owned = some g) : L.owned = some g := by
  rw [ho] at hg'
  split at hg'
  · cases hg'
  · next h0 =>
    cases hg'
    rw [hg] at h0 ⊢
    exact owned_of_generation h h0

/-- command を送らない一歩 -/
structure Quiet (N : LeaseNet) (L L' : OwnerLease κ) : Prop where
  moves : Moves L L'
  ok : LeaseOk N L'
  owned : ∀ g, L'.owned = some g → L.owned = some g

theorem Moves.refl (L : OwnerLease κ) : Moves L L := .of_eq rfl rfl rfl rfl rfl

theorem Moves.trans (m : Moves L₁ L₂) (m' : Moves L₂ L₃) :
    Moves L₁ L₃ where
  timing := m'.timing.trans m.timing
  offset := m'.offset.trans m.offset
  generation h := by
    have h1 := m.generation h
    exact (m'.generation (by rwa [h1])).trans h1
  lifetime h := by
    rcases m'.lifetime h with h1 | h1
    · exact m.lifetime h1
    · exact .inr (by rwa [m.timing] at h1)
  registered h := m'.registered (m.registered h)
  active h ha := m.active h (m'.active (m.registered h) ha)
  revoking h := (m'.revoking h).elim (fun h1 => (m.revoking h1).imp_right m'.terminal) .inr

namespace Quiet

variable {L' : OwnerLease κ}

theorem refl (h : LeaseOk N L) : Quiet N L L := ⟨.refl L, h, fun _ hg => hg⟩

theorem trans (q : Quiet N L L₂) (q' : Quiet N L₂ L') : Quiet N L L' :=
  ⟨q.moves.trans q'.moves, q'.ok, fun g hg => q.owned g (q'.owned g hg)⟩

end Quiet

namespace LeaseOk

theorem not_registerWait (h : LeaseOk N L) (hg : L.generation ≠ 0) (g : Nat) (send : Int)
    (n : Nat) : L.phase ≠ .registerWait g send n := by
  intro hph
  have hp := h.phase
  simp only [PhaseOk, hph] at hp
  exact hg hp.1.2.1

theorem fail (h : LeaseOk N L) : Quiet N L L.fail := by
  have m : Moves L L.fail := ⟨rfl, rfl, fun _ => rfl, .inl, fun _ => by simp [OwnerLease.fail],
    fun _ h => by simp [OwnerLease.fail] at h, fun _ => .inr rfl⟩
  have ho := owned_of_enter L.fail h.phase rfl rfl
  refine ⟨m, m.leaseOk h rfl (by simp [PhaseOk, OwnerLease.fail]) (by simp [OwnerLease.fail]) ho
    ?_, ho⟩
  intro g send n hph
  have hp := h.phase
  simp only [PhaseOk, hph] at hp
  exact .inr (.inl (by simp [OwnerLease.owned, OwnerLease.fail, hp.1.2.1]))

theorem enter (h : LeaseOk N L) (hphase : PhaseOk N (L.enter p))
    (howned : ∀ g, (L.enter p).owned = some g → L.owned = some g)
    (hwait : ∀ g send n, L.phase = .registerWait g send n → N.sent n = none) :
    Quiet N L (L.enter p) := by
  have m : Moves L (L.enter p) := .of_eq rfl rfl rfl rfl rfl
  exact ⟨m, m.leaseOk h rfl hphase h.active howned fun g send n hw =>
    .inr (.inr (hwait g send n hw)), howned⟩

variable {g : Nat}

theorem enterPublished (h : LeaseOk N L) (hphase : PhaseOk N (L.enter p))
    (hpub : L.Published g) : Quiet N L (L.enter p) := by
  have hpub' : (L.enter p).Published g := hpub
  have ho : (L.enter p).owned = L.owned := by rw [hpub.owned_eq h.phase, hpub'.owned_eq hphase]
  exact h.enter hphase (fun g hg => by rwa [ho] at hg) fun g send n hw =>
    absurd hw (h.not_registerWait (generation_ne_of_published hpub) g send n)

theorem setProbe [DecidableEq κ] (h : LeaseOk N L) (k : Option κ)
    (hp : ProbeOk N L p) : Quiet N L (L.setProbe k p) := by
  have m : Moves L (L.setProbe k p) := .of_eq rfl rfl rfl rfl rfl
  refine ⟨m, ⟨h.phase, h.lifetime, h.revoking, h.active, fun k' => m.probeOk ?_, h.commands,
    h.allocated⟩, fun _ hg => hg⟩
  rcases eq_or_ne k' k with rfl | hne
  · simpa only [OwnerLease.setProbe, update_self] using hp
  · simpa only [OwnerLease.setProbe, update_of_ne hne] using h.probes k'

theorem terminate (h : LeaseOk N L) (hpub : L.Published g) :
    Quiet N L { L with state := .terminal } := by
  have m : Moves L { L with state := .terminal } :=
    ⟨rfl, rfl, fun _ => rfl, .inl, fun _ => by simp, fun _ h => (by cases h),
      fun _ => .inr rfl⟩
  refine ⟨m, m.leaseOk h rfl ?_ (by simp) (fun g hg' => hg') fun g send n _ => .inl rfl,
    fun g hg' => hg'⟩
  have hs := hpub.1
  have hg := generation_ne_of_published hpub
  have hp := h.phase
  unfold PhaseOk at hp ⊢
  cases hph : L.phase <;> simp only [hph] at hp ⊢
  all_goals simp_all [Fresh, Published, Awaits, SentAt]

/-! ## `CanGrant` の一歩 -/

theorem probe [DecidableEq κ] (h : LeaseOk N L) (k : Option κ) (readable : Bool) :
    Quiet N L (L.probe N.now k readable) := by
  have hk := h.probes k
  unfold OwnerLease.probe
  split
  · exact .refl h
  · exact .refl h
  · refine h.setProbe k ?_
    split
    · exact fun hf => by cases hf
    · next hg => exact ⟨by tauto, by tauto⟩
  · next g hpr =>
    rw [hpr] at hk
    refine h.setProbe k ?_
    split
    · exact fun hf => by cases hf
    · next hs =>
      have ha : L.state = .active := by tauto
      exact ⟨by simp [ha], hk⟩
  · next g hpr =>
    rw [hpr] at hk
    refine h.setProbe k ⟨hk, ?_⟩
    unfold OwnerLease.read
    split
    · exact .inl (le_refl _)
    · exact .inr rfl
  · next g t hpr =>
    rw [hpr] at hk
    split
    · have q := h.terminate hk.1
      exact q.trans (q.ok.setProbe k fun hf => by cases hf)
    · next ht =>
      refine h.setProbe k ⟨hk.1, fun ha => ?_⟩
      obtain ⟨-, hcov, hmax⟩ := h.active ha
      obtain ⟨-, rfl, -⟩ := hk.1
      exact ⟨by rcases hk.2 with h2 | h2 <;> omega, hcov.weaken (by omega)⟩
  · next g t hpr =>
    rw [hpr] at hk
    refine h.setProbe k fun _ => ?_
    obtain ⟨h1, rfl, h2⟩ := hk.1
    exact ⟨h1, rfl, h2⟩

theorem call [DecidableEq κ] (h : LeaseOk N L) (k : κ) (g : Nat) : Quiet N L (L.call k g) := by
  unfold OwnerLease.call
  split
  · exact h.setProbe _ trivial
  · exact h.setProbe _ trivial
  · exact .refl h

/-! ## `mutex_` を持つ呼び出しの一歩 -/

theorem lifetime_pos_of_validate {t : LeaseTiming} (h : t.validate = .ok u) : 0 < t.lifetimeNs := by
  have := Result.failIf_ok_iff.mp h
  unfold LeaseTiming.lifetimeNs
  omega

section

variable (h : LeaseOk N L)
include h

theorem register : Quiet N L L.register := by
  unfold OwnerLease.register
  split
  · next hph =>
    split
    · exact .refl h
    · next hs =>
      split
      · exact h.fail
      · next hv =>
        have hs' : L.state = .unregistered := by tauto
        have hp := h.phase
        simp only [PhaseOk, hph] at hp
        exact h.enter ⟨hs', hp hs', lifetime_pos_of_validate hv⟩ (owned_of_enter _ h.phase rfl rfl)
          fun g send n hw => by rw [hph] at hw; cases hw
  · exact .refl h

theorem renew [DecidableEq κ] : Quiet N L L.renew := by
  unfold OwnerLease.renew
  split
  · next hph =>
    have hp := h.phase
    simp only [PhaseOk, hph] at hp
    have hr : PhaseOk N (L.enter (.renewCheck L.generation)) := ⟨rfl, hp⟩
    have q := h.enter hr (owned_of_enter _ h.phase rfl rfl)
      fun g send n hw => by rw [hph] at hw; cases hw
    exact q.trans (q.ok.setProbe none trivial)
  · exact .refl h

theorem revoke : Quiet N L L.revoke := by
  unfold OwnerLease.revoke
  split
  · next hph =>
    have m : Moves L { L with state := .terminal, revoking := true } :=
      ⟨rfl, rfl, fun _ => rfl, .inl, fun _ => by simp, fun _ h => (by cases h),
      fun _ => .inr rfl⟩
    refine ⟨m, m.leaseOk h rfl ?_ (by simp) (fun _ hg => hg) fun g send n hw => .inl rfl,
      fun _ hg => hg⟩
    simp [PhaseOk, hph]
  · exact .refl h

theorem bookkeeping (hph : L'.phase = L.phase)
    (hst : L'.state = L.state) (hg : L'.generation = L.generation) (hc : L'.cutoff = L.cutoff)
    (ht : L'.timing = L.timing) (hoff : L'.offset = L.offset) (hpr : L'.probes = L.probes)
    (hr : L'.revoking = true → L.revoking = true) : Quiet N L L' := by
  obtain ⟨timing, offset, state, generation, cutoff, phase, probes, _, _, _⟩ := L
  obtain ⟨timing', offset', state', generation', cutoff', phase', probes', _, _, _⟩ := L'
  cases hph; cases hst; cases hg; cases hc; cases ht; cases hoff; cases hpr
  exact ⟨⟨rfl, rfl, fun _ => rfl, .inl, fun h => h, fun _ h => h, fun h => .inl (hr h)⟩,
    ⟨h.phase, h.lifetime, fun h' => h.revoking (hr h'), h.active, h.probes, h.commands,
      h.allocated⟩, fun _ hg => hg⟩

theorem heartbeatExit : Quiet N L L.heartbeatExit := by
  unfold OwnerLease.heartbeatExit
  split
  · exact h.bookkeeping rfl rfl rfl rfl rfl rfl rfl id
  · exact .refl h

theorem sampleSend (readable : Bool) (hpos : 0 < L.timing.lifetimeNs)
    (hnext : ∀ send, SentAt N L send → Quiet N L (L.enter (next send))) :
    Quiet N L (L.sampleSend N.now readable next) := by
  unfold OwnerLease.sampleSend
  split
  · next hv =>
    refine hnext _ ?_
    obtain ⟨h1, h2⟩ := hv
    unfold OwnerLease.read at h2 ⊢
    unfold SentAt
    split at h2 <;> split <;> omega
  · exact h.fail

theorem confirm (readable : Bool)
    (hnext : Quiet N L (L.enter (next (send + L.timing.lifetimeNs)))) :
    Quiet N L (L.confirm N.now readable send next) := by
  unfold OwnerLease.confirm
  split
  · exact h.fail
  · exact hnext

theorem awaitCreate (hN : NetOk N) (hph : L.phase = .registerWait g send n) (reply : LeaseReply) :
    Quiet N L (L.awaitCreate N g send n reply) := by
  have hp := h.phase
  simp only [PhaseOk, hph] at hp
  obtain ⟨h1, h2, h3, -, -, h4⟩ := hp
  rcases reply with _ | _ | _ <;> simp only [OwnerLease.awaitCreate]
  · split
    · exact .refl h
    · next hr =>
      -- 返事があれば command はもう残っていない
      have hs : N.sent n = none := hN.once n (by simp [hr])
      refine h.enter ⟨h1, h2, h3, h4 hr⟩ (by simp [OwnerLease.owned, hph, OwnerLease.enter]) ?_
      intro g' send' n' hw
      rw [hph] at hw
      cases hw
      exact hs
    · exact h.fail
  · exact h.fail
  · exact h.fail

theorem enterProbing [DecidableEq κ] (hphase : PhaseOk N (L.enter p))
    (hpub : L.Published g) : Quiet N L (L.enterProbing p g) := by
  have q := h.enterPublished hphase hpub
  exact q.trans (q.ok.setProbe none trivial)

theorem awaitRenew [DecidableEq κ] (hph : L.phase = .renewWait g send n) (reply : LeaseReply) :
    Quiet N L (L.awaitRenew N g send n reply) := by
  have hp := h.phase
  simp only [PhaseOk, hph] at hp
  obtain ⟨h1, h2, -, -, h3⟩ := hp
  rcases reply with _ | _ | _ <;> simp only [OwnerLease.awaitRenew]
  · split
    · exact .refl h
    · next hr => exact h.enterProbing ⟨h1, h2, h3 hr⟩ h1
    · exact h.fail
  · exact h.fail
  · exact h.enterProbing h1 h1

theorem onProbed (hA : L.Published L.generation → Quiet N L A) (hB : Quiet N L B) :
    Quiet N L (L.onProbed A B) := by
  have hk := h.probes none
  unfold OwnerLease.onProbed
  split
  · next hr =>
    rw [hr] at hk
    exact hA (hk rfl)
  · exact hB
  · exact .refl h

end

end LeaseOk

/-! ## 一歩の全体への影響 -/

/-- lease `L` の一歩 `r` が、自分と他の lease に対して守ること -/
structure LeaseStep (N : LeaseNet) (L : OwnerLease κ) (r : OwnerLease κ × LeaseNet) : Prop where
  moves : Moves L r.1
  own : LeaseOk r.2 r.1
  net : NetOk r.2
  others : ∀ M : OwnerLease κ, LeaseOk N M → (∀ g, L.owned = some g → M.owned ≠ some g) →
    LeaseOk r.2 M
  owned : ∀ g, r.1.owned = some g → L.owned = some g ∨ ¬ Allocated N g

namespace LeaseStep

variable {L' : OwnerLease κ}

theorem quiet (hN : NetOk N) (q : Quiet N L L') : LeaseStep N L (L', N) :=
  ⟨q.moves, q.ok, hN, fun _ hM _ => hM, fun g hg => .inl (q.owned g hg)⟩

theorem sends (hN : NetOk N) (hL : LeaseOk N L)
    (hc : L.owned = some c.generation) (m : Moves L L') (h : LeaseOk (N.send c) L')
    (ho : ∀ g, L'.owned = some g → L.owned = some g) : LeaseStep N L (L', N.send c) :=
  ⟨m, h, hN.send (hL.allocated _ hc), fun _ hM hd => (keeps_send hM.phase (hd _ hc)).leaseOk hM,
    fun g hg => .inl (ho g hg)⟩

end LeaseStep

/-! ## generation を取る一歩 -/

theorem commit_allocate (store : LockStore) :
    (∃ e, allocateGeneration.commit store = (.error e, store)) ∨
      ∃ counter store', store .ownerGeneration = some counter ∧
        store' .ownerGeneration = some (counter + 1) ∧
        allocateGeneration.commit store = (.ok (counter + 1), store') := by
  unfold Txn.commit
  cases he : allocateGeneration.eval store [] with
  | error e => exact .inl ⟨e, rfl⟩
  | ok p =>
    obtain ⟨g, ws⟩ := p
    obtain ⟨counter, hc, rfl, rfl⟩ := allocateGeneration_ok he
    refine .inr ⟨counter, _, hc, ?_, rfl⟩
    rw [Cmd.applyAll_cons, Cmd.applyAll_nil]
    exact (Cmd.apply_key _ _).trans (by simp [LockCmd.incrGeneration, hc])

variable {g : Nat}

theorem allocated_commit (h : Allocated N g) :
    Allocated { N with store := (allocateGeneration.commit N.store).2 } g := by
  obtain ⟨counter, h1, h2⟩ := h
  rcases commit_allocate N.store with ⟨e, he⟩ | ⟨c, store', hc, hc', he⟩
  · exact ⟨counter, by simp only [he, h1], h2⟩
  · rw [h1] at hc
    cases hc
    exact ⟨counter + 1, by simp only [he, hc'], by omega⟩

theorem keeps_commit (hp : PhaseOk N L) :
    Keeps L N { N with store := (allocateGeneration.commit N.store).2 } :=
  keeps_of_untouched hp (le_refl _) (le_refl _) (fun _ => allocated_commit) (fun _ _ => rfl)
    (fun _ _ => ⟨rfl, rfl⟩) fun _ _ h _ => h

theorem NetOk.commit (h : NetOk N) :
    NetOk { N with store := (allocateGeneration.commit N.store).2 } :=
  ⟨h.fresh, h.once, fun n c hc => allocated_commit (h.allocated n c hc)⟩

theorem leaseStep_allocate (hN : NetOk N) (h : LeaseOk N L) (hph : L.phase = .allocate)
    (reply : LeaseReply) : LeaseStep N L (L.allocate N reply) := by
  have hfresh := h.phase
  simp only [PhaseOk, hph] at hfresh
  rcases reply with _ | _ | _ | _ <;> simp only [OwnerLease.allocate]
  · rcases commit_allocate N.store with ⟨e, he⟩ | ⟨counter, store', hc, hc', he⟩
    · simp only [he]
      exact .quiet hN h.fail
    · have hk : Keeps L N { N with store := store' } := by
        have := keeps_commit h.phase
        rwa [he] at this
      have hN' : NetOk { N with store := store' } := by
        have := hN.commit
        rwa [he] at this
      have hnew : ¬ Allocated N (counter + 1) := by
        rintro ⟨c, h1, h2⟩
        rw [hc] at h1
        cases h1
        omega
      have m : Moves L (L.enter (.registerClock (counter + 1))) :=
        .of_eq rfl rfl rfl rfl rfl
      have hL := hk.leaseOk h
      simp only [he]
      refine ⟨m, ⟨⟨hfresh, by omega⟩, hL.lifetime, hL.revoking, hL.active,
        fun k => m.probeOk (hL.probes k), ?_, ?_⟩, hN', fun M hM _ => ?_, fun g hg => .inr ?_⟩
      · intro n c hn ho
        have hg : counter + 1 = c.generation := Option.some.inj ho
        exact absurd (hN.allocated n c hn) (hg ▸ hnew)
      · intro g hg
        cases hg
        exact ⟨_, hc', le_refl _⟩
      · have := (keeps_commit hM.phase).leaseOk hM
        rwa [he] at this
      · cases hg
        exact hnew
  · exact .quiet hN h.fail
  · exact .quiet hN h.fail
  · have hk := (keeps_commit h.phase).leaseOk h
    have q := hk.fail
    exact ⟨q.moves, q.ok, hN.commit, fun M hM _ => (keeps_commit hM.phase).leaseOk hM,
      fun g hg => .inl (q.owned g hg)⟩

/-! ## `advance` の一歩 -/

variable {send cutoff : Int}

theorem cutoffOk_of_covered (hs : SentAt N L send) (h : Covered N L g (send + L.timing.ttlNs)) :
    CutoffOk N L g (send + L.timing.lifetimeNs) := by
  refine ⟨h.weaken ?_, hs.2⟩
  simp only [LeaseTiming.lifetimeNs, LeaseTiming.marginNs, LeaseTiming.ttlNs]
  omega

theorem leaseStep_registerSend (hN : NetOk N) (h : LeaseOk N L)
    (hph : L.phase = .registerSend g send) :
    LeaseStep N L (L.enter (.registerWait g send N.serial),
      N.send (.create g L.timing.ttlNs)) := by
  have hp := h.phase
  simp only [PhaseOk, hph] at hp
  obtain ⟨h1, h2, h3⟩ := hp
  have ho : L.owned = some g := by simp [owned, hph]
  have hsub : ∀ g', (L.enter (.registerWait g send N.serial)).owned = some g' →
      L.owned = some g' := fun g' hg => by rw [ho]; exact hg
  have m : Moves L (L.enter (.registerWait g send N.serial)) :=
    .of_eq rfl rfl rfl rfl rfl
  refine .sends hN h ho m (m.leaseOk_send h rfl ?_ (fun hs => ⟨hs, rfl, rfl⟩) hsub
    (by simp [hph]) ⟨rfl, send, rfl⟩) hsub
  refine ⟨h1, h2, h3, Nat.lt_succ_self _, fun d hd => ?_, fun hr => ?_⟩
  · simp only [LeaseNet.send, update_self] at hd
    cases hd
    rfl
  · rw [LeaseNet.send, (hN.fresh _ (le_refl _)).2] at hr
    cases hr

theorem leaseStep_renewSend (hN : NetOk N) (h : LeaseOk N L) (hph : L.phase = .renewSend g send) :
    LeaseStep N L (L.enter (.renewWait g send N.serial),
      N.send (.renew g L.timing.ttlNs)) := by
  have hp := h.phase
  simp only [PhaseOk, hph] at hp
  obtain ⟨h1, h2⟩ := hp
  have ho : L.owned = some g := h1.owned_eq h.phase
  have hphase : PhaseOk (N.send (.renew g L.timing.ttlNs))
      (L.enter (.renewWait g send N.serial)) := by
    refine ⟨h1, h2, Nat.lt_succ_self _, fun d hd => ?_, fun hr => ?_⟩
    · simp only [LeaseNet.send, update_self] at hd
      cases hd
      rfl
    · rw [LeaseNet.send, (hN.fresh _ (le_refl _)).2] at hr
      cases hr
  have hsub := owned_of_enter (L.enter (.renewWait g send N.serial)) h.phase rfl rfl
  have m : Moves L (L.enter (.renewWait g send N.serial)) :=
    .of_eq rfl rfl rfl rfl rfl
  exact .sends hN h ho m (m.leaseOk_send h rfl hphase (fun hs => ⟨hs, rfl, rfl⟩) hsub
    (by simp [hph]) rfl) hsub

theorem leaseStep_revoke (hN : NetOk N) (h : LeaseOk N L) (m : Moves L L')
    (ht : L.state = .terminal) (hg : L.generation ≠ 0) (hph : L'.phase = .free)
    (hgen : L'.generation = L.generation) (hprobes : L'.probes = L.probes) :
    LeaseStep N L (L', N.send (.revoke L.generation)) := by
  have ht' : L'.state = .terminal := m.terminal ht
  have hsub := owned_of_enter L' h.phase hgen (by simp [owned, hph])
  refine .sends hN h (owned_of_generation h.phase hg) m (m.leaseOk_send h hprobes ?_ (by simp [ht'])
    hsub (h.not_registerWait hg) ht') hsub
  simp [PhaseOk, hph, ht']

theorem leaseStep_revokeDelete (hN : NetOk N) (h : LeaseOk N L) :
    LeaseStep N L (L.revokeDelete N) := by
  unfold OwnerLease.revokeDelete
  split
  · next hph =>
    split
    · exact .quiet hN (.refl h)
    · next hrev =>
      split
      · exact .quiet hN (h.bookkeeping rfl rfl rfl rfl rfl rfl rfl (by simp))
      · next hg =>
        have ht : L.state = .terminal := h.revoking (by simpa using (not_or.mp hrev).1)
        exact leaseStep_revoke hN h ⟨rfl, rfl, fun _ => rfl, .inl, fun h => h, fun _ h => h,
          fun h => (by cases h)⟩ ht (not_or.mp hg).2 hph rfl rfl
  · exact .quiet hN (.refl h)

section

variable (h : LeaseOk N L)
include h

theorem quiet_storeGeneration (hph : L.phase = .storeGeneration g cutoff) :
    Quiet N L { L with generation := g, phase := .storeCutoff g cutoff } := by
  have hp := h.phase
  simp only [PhaseOk, hph] at hp
  obtain ⟨⟨h1, h2, h3⟩, h4, h5⟩ := hp
  have m : Moves L { L with generation := g, phase := .storeCutoff g cutoff } :=
    ⟨rfl, rfl, fun h => absurd h2 h, fun _ => .inr h3, fun h => h, fun _ h => h, .inl⟩
  have ho : ∀ g', ({ L with generation := g, phase := .storeCutoff g cutoff } :
      OwnerLease κ).owned = some g' → L.owned = some g' := by
    intro g' hg'
    simp only [owned, if_neg h4] at hg'
    simpa [owned, hph] using hg'
  exact ⟨m, m.leaseOk h rfl ⟨h1, rfl, h4, h5⟩ (by simp [h1]) ho (by simp [hph]), ho⟩

theorem quiet_storeCutoff (hph : L.phase = .storeCutoff g cutoff) :
    Quiet N L { L with cutoff, phase := .storeActive g } := by
  have hp := h.phase
  simp only [PhaseOk, hph] at hp
  obtain ⟨h1, rfl, h2, h3⟩ := hp
  have m : Moves L { L with cutoff, phase := .storeActive L.generation } :=
    .of_eq rfl rfl rfl rfl rfl
  have ho := owned_of_enter { L with cutoff, phase := .storeActive L.generation } h.phase rfl rfl
  exact ⟨m, m.leaseOk h rfl ⟨h1, rfl, h2, h3⟩ (by simp [h1]) ho (by simp [hph]), ho⟩

theorem quiet_storeActive (hph : L.phase = .storeActive g) :
    Quiet N L { L with state := .active, phase := .startHeartbeat g } := by
  have hp := h.phase
  simp only [PhaseOk, hph] at hp
  obtain ⟨h1, rfl, h2, h3⟩ := hp
  have m : Moves L { L with state := .active, phase := .startHeartbeat L.generation } :=
    ⟨rfl, rfl, fun _ => rfl, .inl, fun _ => by simp, fun hs => absurd h1 hs, .inl⟩
  have ho := owned_of_enter { L with state := .active, phase := .startHeartbeat L.generation }
    h.phase rfl rfl
  exact ⟨m, m.leaseOk h rfl ⟨by simp, rfl, h2⟩ (fun _ => ⟨h2, h3⟩) ho (by simp [hph]), ho⟩

theorem quiet_renewStore (hph : L.phase = .renewStore g cutoff) :
    Quiet N L { L with cutoff, phase := .free } := by
  have hp := h.phase
  simp only [PhaseOk, hph] at hp
  obtain ⟨h1, h2⟩ := hp
  have m : Moves L { L with cutoff, phase := .free } :=
    .of_eq rfl rfl rfl rfl rfl
  have ho := owned_of_enter { L with cutoff, phase := .free } h.phase rfl rfl
  refine ⟨m, m.leaseOk h rfl (fun hs => absurd hs h1.1) (fun hs => ?_) ho (by simp [hph]), ho⟩
  obtain ⟨-, rfl, h3⟩ := h1
  exact ⟨h3, h2 hs⟩

/-- heartbeat の thread を起こす一歩。起こせなければ terminal にして `DEL` へ進む -/
theorem quiet_startHeartbeat (hph : L.phase = .startHeartbeat g) :
    Quiet N L { L with heartbeat := true, phase := .free } ∧
      Quiet N L { L with state := .terminal, phase := .abandon g } := by
  have hp := h.phase
  simp only [PhaseOk, hph] at hp
  constructor
  · have q := h.enterPublished (p := .free) (fun hs => absurd hs hp.1) hp
    exact q.trans (q.ok.bookkeeping rfl rfl rfl rfl rfl rfl rfl id)
  · have q := h.terminate hp
    have hpub : ({ L with state := .terminal } : OwnerLease κ).Published g :=
      ⟨by simp, hp.2⟩
    exact q.trans (q.ok.enterPublished (p := .abandon g) ⟨hpub, rfl⟩ hpub)

end

theorem leaseStep_advance [DecidableEq κ] (hN : NetOk N) (h : LeaseOk N L) (readable : Bool)
    (reply : LeaseReply) : LeaseStep N L (L.advance N readable reply) := by
  have hp := h.phase
  unfold OwnerLease.advance
  cases hph : L.phase <;> simp only [PhaseOk, hph] at hp ⊢
  case free => exact .quiet hN (.refl h)
  case allocate => exact leaseStep_allocate hN h hph reply
  case registerClock g =>
    obtain ⟨h1, h2⟩ := hp
    refine .quiet hN (h.sampleSend readable h1.2.2 fun send hs => ?_)
    exact h.enter ⟨h1, h2, hs⟩ (by simp [owned, hph, enter]) (by simp [hph])
  case registerSend g send => exact leaseStep_registerSend hN h hph
  case registerWait g send n => exact .quiet hN (h.awaitCreate hN hph reply)
  case registerConfirm g send =>
    obtain ⟨h1, h2, h3, h4⟩ := hp
    refine .quiet hN (h.confirm readable ?_)
    exact h.enter ⟨h1, h2, cutoffOk_of_covered h3 h4⟩ (by simp [owned, hph, enter])
      (by simp [hph])
  case storeGeneration g cutoff => exact .quiet hN (quiet_storeGeneration h hph)
  case storeCutoff g cutoff => exact .quiet hN (quiet_storeCutoff h hph)
  case storeActive g => exact .quiet hN (quiet_storeActive h hph)
  case startHeartbeat g =>
    obtain ⟨q, q'⟩ := quiet_startHeartbeat h hph
    cases reply with
    | arrives => exact .quiet hN q
    | refused | lost => exact .quiet hN q'
  case abandon g =>
    obtain ⟨⟨-, rfl, h3⟩, h4⟩ := hp
    exact leaseStep_revoke hN h (.of_eq rfl rfl rfl rfl rfl) h4 h3 rfl rfl rfl
  case renewCheck g =>
    obtain ⟨rfl, h2⟩ := hp
    refine .quiet hN (h.onProbed (fun hpub => h.enterPublished hpub hpub) ?_)
    exact h.enter h2 (owned_of_enter _ h.phase rfl rfl) (by simp [hph])
  case renewClock g =>
    refine .quiet hN (h.sampleSend readable (h.lifetime (generation_ne_of_published hp))
      fun send hs => ?_)
    exact h.enterPublished ⟨hp, hs⟩ hp
  case renewSend g send => exact leaseStep_renewSend hN h hph
  case renewWait g send n => exact .quiet hN (h.awaitRenew hph reply)
  case renewUnknown g =>
    have q := h.enterPublished (p := .free) (fun hs => absurd hs hp.1) hp
    exact .quiet hN (h.onProbed (fun _ => q) q)
  case renewConfirm g send =>
    refine .quiet hN (h.onProbed (fun _ => ?_) h.fail)
    exact h.enterPublished hp hp.1
  case renewFinal g send =>
    obtain ⟨h1, h2, h3⟩ := hp
    refine .quiet hN (h.confirm readable (h.enterPublished ⟨h1, fun hs => ?_⟩ h1))
    exact cutoffOk_of_covered h2 (h3 hs)
  case renewStore g cutoff => exact .quiet hN (quiet_renewStore h hph)

end SwordFS.Metadata.Lock
