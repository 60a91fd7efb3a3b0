import SwordFS.Metadata.Redis.OwnerLease

/-!
# lock owner の lease の不変条件

不変条件の中心は `Covered` である。key の期限は「確かめた送信の時刻 + ttl」を下回らず、
実行の時刻 + ttl を上回らないので、遅れて実行される `PEXPIRE` は期限を縮めない。
key を消すのは terminal になった持ち主の `DEL` だけである。

Redis の側だけが変わるとき（時計が進む、command が実行される、他の lease が送る）に
不変条件が保たれることを示す。
-/

namespace SwordFS.Metadata.Lock

open Infra Function

variable {ι κ : Type} {N N' : LeaseNet} {L : OwnerLease κ}

/-! ## 不変条件 -/

/-- key `g` が local の時刻 `x` まで残り、期限は今から送る `PEXPIRE` を超えない -/
def Covered (N : LeaseNet) (L : OwnerLease κ) (g : Nat) (x : Int) : Prop :=
  ∃ e, N.expiry g = some e ∧ x ≤ e + L.offset ∧ e ≤ N.now + L.timing.ttlNs

/-- `n` 番で送った `c` の返事を待っている。肯定の返事は `P` を意味する -/
def Awaits (N : LeaseNet) (n : Nat) (c : LeaseCommand) (P : Prop) : Prop :=
  n < N.serial ∧ (∀ d, N.sent n = some d → d = c) ∧ (N.replies n = some true → P)

def Allocated (N : LeaseNet) (g : Nat) : Prop :=
  ∃ counter, N.store .ownerGeneration = some counter ∧ g ≤ counter

namespace OwnerLease

/-- この lease が取った generation。`generation_` へ書く前のものも含む -/
def owned (L : OwnerLease κ) : Option Nat :=
  match L.phase with
  | .registerClock g | .registerSend g _ | .registerWait g _ _ | .registerConfirm g _
  | .storeGeneration g _ => some g
  | _ => if L.generation = 0 then none else some L.generation

def awaited (L : OwnerLease κ) : Option Nat :=
  match L.phase with
  | .registerWait _ _ n | .renewWait _ _ n => some n
  | _ => none

/-- timing を確かめたが、まだ何も公開していない -/
def Fresh (L : OwnerLease κ) : Prop :=
  L.state = .unregistered ∧ L.generation = 0 ∧ 0 < L.timing.lifetimeNs

def Published (L : OwnerLease κ) (g : Nat) : Prop :=
  L.state ≠ .unregistered ∧ L.generation = g ∧ g ≠ 0

/-- 送信の時刻 `send` は過去のもので、cutoff は int64 に収まる -/
def SentAt (N : LeaseNet) (L : OwnerLease κ) (send : Int) : Prop :=
  send ≤ N.now + L.offset ∧ send + L.timing.lifetimeNs ≤ int64Max

def CutoffOk (N : LeaseNet) (L : OwnerLease κ) (g : Nat) (cutoff : Int) : Prop :=
  Covered N L g (cutoff + L.timing.marginNs) ∧ cutoff ≤ int64Max

/-- `mutex_` を持つ呼び出しの、現在地ごとの条件 -/
def PhaseOk (N : LeaseNet) (L : OwnerLease κ) : Prop :=
  match L.phase with
  | .free => L.state = .unregistered → L.generation = 0
  | .allocate => L.Fresh
  | .registerClock g => L.Fresh ∧ g ≠ 0
  | .registerSend g send => L.Fresh ∧ g ≠ 0 ∧ SentAt N L send
  | .registerWait g send n => L.Fresh ∧ g ≠ 0 ∧ SentAt N L send ∧
      Awaits N n (.create g L.timing.ttlNs) (Covered N L g (send + L.timing.ttlNs))
  | .registerConfirm g send => L.Fresh ∧ g ≠ 0 ∧ SentAt N L send ∧
      Covered N L g (send + L.timing.ttlNs)
  | .storeGeneration g cutoff => L.Fresh ∧ g ≠ 0 ∧ CutoffOk N L g cutoff
  | .storeCutoff g cutoff => L.state = .unregistered ∧ L.generation = g ∧ g ≠ 0 ∧
      CutoffOk N L g cutoff
  | .storeActive g => L.state = .unregistered ∧ L.generation = g ∧ g ≠ 0 ∧
      CutoffOk N L g L.cutoff
  | .startHeartbeat g => L.Published g
  | .abandon g => L.Published g ∧ L.state = .terminal
  | .renewCheck g => L.generation = g ∧ (L.state = .unregistered → L.generation = 0)
  | .renewClock g => L.Published g
  | .renewSend g send => L.Published g ∧ SentAt N L send
  | .renewWait g send n => L.Published g ∧ SentAt N L send ∧
      Awaits N n (.renew g L.timing.ttlNs)
        (L.state = .active → Covered N L g (send + L.timing.ttlNs))
  | .renewUnknown g => L.Published g
  | .renewConfirm g send => L.Published g ∧ SentAt N L send ∧
      (L.state = .active → Covered N L g (send + L.timing.ttlNs))
  | .renewFinal g send => L.Published g ∧ SentAt N L send ∧
      (L.state = .active → Covered N L g (send + L.timing.ttlNs))
  | .renewStore g cutoff => L.Published g ∧ (L.state = .active → CutoffOk N L g cutoff)

/-- `CanGrant` の呼び出しの、現在地ごとの条件 -/
def ProbeOk (N : LeaseNet) (L : OwnerLease κ) : Probe → Prop
  | .idle | .generation _ => True
  | .state g => L.generation = g ∧ g ≠ 0
  | .clock g => L.Published g
  | .cutoff g t => L.Published g ∧ (t ≤ N.now + L.offset ∨ t = int64Max)
  | .final g t => L.Published g ∧ (L.state = .active →
      t ≤ N.now + L.offset ∧ Covered N L g (t + L.timing.marginNs))
  | .returned granted => granted = true → L.Published L.generation

/-- 自分の key に対する、まだ実行されていない command -/
def CommandOk (L : OwnerLease κ) (n : Nat) : LeaseCommand → Prop
  | .create g ttl => ttl = L.timing.ttlNs ∧ ∃ send, L.phase = .registerWait g send n
  | .renew _ ttl => ttl = L.timing.ttlNs
  | .revoke _ => L.state = .terminal

end OwnerLease

open OwnerLease

/-- 一つの lease の不変条件 -/
structure LeaseOk (N : LeaseNet) (L : OwnerLease κ) : Prop where
  phase : PhaseOk N L
  lifetime : L.generation ≠ 0 → 0 < L.timing.lifetimeNs
  revoking : L.revoking = true → L.state = .terminal
  active : L.state = .active → L.generation ≠ 0 ∧ CutoffOk N L L.generation L.cutoff
  probes : ∀ k, ProbeOk N L (L.probes k)
  commands : ∀ n c, N.sent n = some c → L.owned = some c.generation → CommandOk L n c
  allocated : ∀ g, L.owned = some g → Allocated N g

/-- Redis の側の不変条件 -/
structure NetOk (N : LeaseNet) : Prop where
  fresh : ∀ n, N.serial ≤ n → N.sent n = none ∧ N.replies n = none
  once : ∀ n, N.replies n ≠ none → N.sent n = none
  allocated : ∀ n c, N.sent n = some c → Allocated N c.generation

/-- 全体の不変条件 -/
structure SystemOk (S : LeaseSystem ι κ) : Prop where
  net : NetOk S.net
  lease : ∀ i, LeaseOk S.net (S.leases i)
  distinct : ∀ i j g, (S.leases i).owned = some g → (S.leases j).owned = some g → i = j

/-! ## 現在地と generation -/

variable {g n : Nat}

theorem Covered.weaken (h : Covered N L g x) (hxy : y ≤ x) : Covered N L g y := by
  obtain ⟨e, h1, h2, h3⟩ := h
  exact ⟨e, h1, by omega, h3⟩

theorem owned_of_generation (h : PhaseOk N L) (hg : L.generation ≠ 0) :
    L.owned = some L.generation := by
  unfold PhaseOk Fresh at h
  unfold owned
  split <;> simp_all

theorem generation_ne_of_published (h : L.Published g) : L.generation ≠ 0 :=
  fun h0 => h.2.2 (h.2.1.symm.trans h0)

theorem OwnerLease.Published.owned_eq (h : L.Published g) (hp : PhaseOk N L) :
    L.owned = some g := by
  rw [owned_of_generation hp (generation_ne_of_published h), h.2.1]

/-! ## Redis の側だけが変わるとき -/

/-- 持ち主 `L` から見て、`N` から `N'` への変化が不変条件を壊さない -/
structure Keeps (L : OwnerLease κ) (N N' : LeaseNet) : Prop where
  now : N.now ≤ N'.now
  counter : ∀ g, Allocated N g → Allocated N' g
  covered : ∀ g x, L.owned = some g → L.state ≠ .terminal → Covered N L g x → Covered N' L g x
  register : ∀ g send n, L.phase = .registerWait g send n →
    SentAt N L send →
    Awaits N n (.create g L.timing.ttlNs) (Covered N L g (send + L.timing.ttlNs)) →
    Awaits N' n (.create g L.timing.ttlNs) (Covered N' L g (send + L.timing.ttlNs))
  renew : ∀ g send n, L.phase = .renewWait g send n →
    SentAt N L send →
    Awaits N n (.renew g L.timing.ttlNs)
      (L.state = .active → Covered N L g (send + L.timing.ttlNs)) →
    Awaits N' n (.renew g L.timing.ttlNs)
      (L.state = .active → Covered N' L g (send + L.timing.ttlNs))
  commands : ∀ n c, N'.sent n = some c → L.owned = some c.generation → N.sent n = some c

namespace Keeps

section

variable (k : Keeps L N N')
include k

theorem sentAt (h : SentAt N L send) : SentAt N' L send := by
  have := k.now
  exact ⟨by have := h.1; omega, h.2⟩

theorem cutoffOk (ho : L.owned = some g)
    (ht : L.state ≠ .terminal) (h : CutoffOk N L g x) : CutoffOk N' L g x :=
  ⟨k.covered g _ ho ht h.1, h.2⟩

theorem phaseOk (h : PhaseOk N L) : PhaseOk N' L := by
  have hu : L.state = .unregistered → L.state ≠ .terminal := by rintro h1; simp [h1]
  have ha : L.state = .active → L.state ≠ .terminal := by rintro h1; simp [h1]
  have hpub : ∀ g, L.Published g → L.owned = some g := fun g hg => hg.owned_eq h
  have hgen : L.generation ≠ 0 → L.owned = some L.generation := owned_of_generation h
  unfold PhaseOk at h ⊢
  cases hp : L.phase <;> simp only [hp] at h ⊢
  case free | allocate | registerClock | startHeartbeat | abandon | renewCheck | renewClock
      | renewUnknown => exact h
  case registerSend g send => exact ⟨h.1, h.2.1, k.sentAt h.2.2⟩
  case registerWait g send n =>
    obtain ⟨h1, h2, h3, h4⟩ := h
    exact ⟨h1, h2, k.sentAt h3, k.register g send n hp h3 h4⟩
  case registerConfirm g send =>
    obtain ⟨h1, h2, h3, h4⟩ := h
    exact ⟨h1, h2, k.sentAt h3, k.covered g _ (by simp [owned, hp]) (hu h1.1) h4⟩
  case storeGeneration g cutoff =>
    obtain ⟨h1, h2, h3⟩ := h
    exact ⟨h1, h2, k.cutoffOk (by simp [owned, hp]) (hu h1.1) h3⟩
  case storeCutoff g cutoff =>
    obtain ⟨h1, rfl, h2, h3⟩ := h
    exact ⟨h1, rfl, h2, k.cutoffOk (hgen h2) (hu h1) h3⟩
  case storeActive g =>
    obtain ⟨h1, rfl, h2, h3⟩ := h
    exact ⟨h1, rfl, h2, k.cutoffOk (hgen h2) (hu h1) h3⟩
  case renewSend g send => exact ⟨h.1, k.sentAt h.2⟩
  case renewWait g send n =>
    obtain ⟨h1, h2, h3⟩ := h
    exact ⟨h1, k.sentAt h2, k.renew g send n hp h2 h3⟩
  case renewConfirm g send | renewFinal g send =>
    obtain ⟨h1, h2, h3⟩ := h
    exact ⟨h1, k.sentAt h2, fun hs => k.covered g _ (hpub g h1) (ha hs) (h3 hs)⟩
  case renewStore g cutoff =>
    obtain ⟨h1, h2⟩ := h
    exact ⟨h1, fun hs => k.cutoffOk (hpub g h1) (ha hs) (h2 hs)⟩

theorem probeOk (hph : PhaseOk N L) (h : ProbeOk N L p) : ProbeOk N' L p := by
  have hn := k.now
  cases p with
  | idle | generation | state | clock | returned => exact h
  | cutoff g t => exact ⟨h.1, by rcases h.2 with h2 | h2 <;> omega⟩
  | final g t =>
    refine ⟨h.1, fun hs => ?_⟩
    obtain ⟨h2, h3⟩ := h.2 hs
    exact ⟨by omega, k.covered g _ (h.1.owned_eq hph) (by simp [hs]) h3⟩

theorem leaseOk (h : LeaseOk N L) : LeaseOk N' L where
  phase := k.phaseOk h.phase
  lifetime := h.lifetime
  revoking := h.revoking
  active hs := by
    obtain ⟨h1, h2⟩ := h.active hs
    exact ⟨h1, k.cutoffOk (owned_of_generation h.phase h1) (by simp [hs]) h2⟩
  probes p := k.probeOk h.phase (h.probes p)
  commands n c hn ho := h.commands n c (k.commands n c hn ho) ho
  allocated g ho := k.counter g (h.allocated g ho)

end

end Keeps

theorem keeps_of_untouched (hp : PhaseOk N L) (hnow : N.now ≤ N'.now)
    (hserial : N.serial ≤ N'.serial) (hcounter : ∀ g, Allocated N g → Allocated N' g)
    (hexpiry : ∀ g, L.owned = some g → N'.expiry g = N.expiry g)
    (hawaited : ∀ n, L.awaited = some n → N'.sent n = N.sent n ∧ N'.replies n = N.replies n)
    (hcommands : ∀ n c, N'.sent n = some c → L.owned = some c.generation →
      N.sent n = some c) :
    Keeps L N N' := by
  have hcov : ∀ g x, L.owned = some g → Covered N L g x → Covered N' L g x := by
    rintro g x ho ⟨e, h1, h2, h3⟩
    exact ⟨e, by rw [hexpiry g ho, h1], h2, by omega⟩
  have haw : ∀ {n : Nat} {c : LeaseCommand} {P Q : Prop}, L.awaited = some n → (P → Q) →
      Awaits N n c P → Awaits N' n c Q := by
    rintro n c P Q ha hPQ ⟨h1, h2, h3⟩
    obtain ⟨hs, hr⟩ := hawaited n ha
    exact ⟨by omega, by rw [hs]; exact h2, by rw [hr]; exact fun h => hPQ (h3 h)⟩
  refine ⟨hnow, hcounter, fun g x ho _ => hcov g x ho, ?_, ?_, hcommands⟩
  · intro g send n hph _ h
    exact haw (by simp [awaited, hph]) (hcov g _ (by simp [owned, hph])) h
  · intro g send n hph _ h
    have ho : L.owned = some g := by
      simp only [PhaseOk, hph] at hp
      have := hp.1.2.1
      have := hp.1.2.2
      simp_all [owned]
    exact haw (by simp [awaited, hph]) (fun h hs => hcov g _ ho (h hs)) h

/-! ## command の実行 -/

theorem awaited_lt (hp : PhaseOk N L) (ha : L.awaited = some n) : n < N.serial := by
  unfold awaited at ha
  split at ha
  · next g send m hph =>
    simp only [PhaseOk, hph] at hp
    cases ha
    exact hp.2.2.2.1
  · next g send m hph =>
    simp only [PhaseOk, hph] at hp
    cases ha
    exact hp.2.2.1
  · cases ha

theorem owned_of_renewWait (hp : PhaseOk N L) (hph : L.phase = .renewWait g send n) :
    L.owned = some g := by
  have h := hp
  simp only [PhaseOk, hph] at h
  exact h.1.owned_eq hp

variable {c : LeaseCommand}

theorem awaited_generation (hp : PhaseOk N L) (ha : L.awaited = some n) (hc : N.sent n = some c) :
    L.owned = some c.generation := by
  unfold awaited at ha
  split at ha
  · next g send m hph =>
    simp only [PhaseOk, hph] at hp
    cases ha
    rw [hp.2.2.2.2.1 c hc]
    simp [owned, hph, LeaseCommand.generation]
  · next g send m hph =>
    have h := hp
    simp only [PhaseOk, hph] at h
    cases ha
    rw [h.2.2.2.1 c hc, owned_of_renewWait hp hph]
    rfl
  · cases ha

/-- 自分の command の実行は、terminal でないかぎり `Covered` を保つ -/
theorem Covered.execute (h : Covered N L c.generation x) (hc : N.sent n = some c)
    (hcmd : CommandOk L n c) (ht : L.state ≠ .terminal) :
    Covered (N.execute n) L c.generation x := by
  obtain ⟨e, h1, h2, h3⟩ := h
  simp only [Covered, LeaseNet.execute, hc, update_self, h1]
  cases c with
  | create g ttl =>
    obtain ⟨rfl, -⟩ := hcmd
    simp only [LeaseCommand.exec]
    split
    · exact ⟨e, rfl, h2, h3⟩
    · exact ⟨_, rfl, by omega, le_refl _⟩
  | renew g ttl =>
    cases hcmd
    simp only [LeaseCommand.exec]
    split
    · exact ⟨_, rfl, by omega, le_refl _⟩
    · exact ⟨e, rfl, h2, h3⟩
  | revoke g => exact absurd hcmd ht

theorem covered_of_accepted (hc : N.sent n = some c) (hcmd : CommandOk L n c)
    (ht : L.state ≠ .terminal) (hs : send ≤ N.now + L.offset)
    (hr : (c.exec N.now (N.expiry c.generation)).1 = true) :
    Covered (N.execute n) L c.generation (send + L.timing.ttlNs) := by
  simp only [Covered, LeaseNet.execute, hc, update_self]
  cases c with
  | create g ttl =>
    obtain ⟨rfl, -⟩ := hcmd
    simp only [LeaseCommand.exec] at hr ⊢
    split at hr
    · cases hr
    · next h =>
      rw [if_neg h]
      exact ⟨_, rfl, by omega, le_refl _⟩
  | renew g ttl =>
    cases hcmd
    simp only [LeaseCommand.exec] at hr ⊢
    split at hr
    · next h =>
      rw [if_pos h]
      exact ⟨_, rfl, by omega, le_refl _⟩
    · cases hr
  | revoke g => exact absurd hcmd ht

theorem execute_now (N : LeaseNet) (n : Nat) : (N.execute n).now = N.now := by
  unfold LeaseNet.execute; split <;> rfl

theorem execute_store (N : LeaseNet) (n : Nat) : (N.execute n).store = N.store := by
  unfold LeaseNet.execute; split <;> rfl

theorem execute_serial (N : LeaseNet) (n : Nat) : (N.execute n).serial = N.serial := by
  unfold LeaseNet.execute; split <;> rfl

theorem sent_of_execute (h : (N.execute n).sent m = some c) : N.sent m = some c := by
  unfold LeaseNet.execute at h
  split at h
  · exact h
  · rcases eq_or_ne m n with rfl | hm
    · simp at h
    · simpa [update_of_ne hm] using h

theorem Awaits.execute (h : Awaits N m d P) (hc : N.sent n = some c) (hPQ : P → Q)
    (haccept : m = n → (c.exec N.now (N.expiry c.generation)).1 = true → Q) :
    Awaits (N.execute n) m d Q := by
  obtain ⟨h1, h2, h3⟩ := h
  refine ⟨by rwa [execute_serial], fun d' hd' => h2 d' (sent_of_execute hd'), ?_⟩
  simp only [LeaseNet.execute, hc]
  rcases eq_or_ne m n with rfl | hm
  · simpa using haccept rfl
  · rw [update_of_ne hm]
    exact fun hr => hPQ (h3 hr)

theorem keeps_execute (h : LeaseOk N L) (n : Nat) : Keeps L N (N.execute n) := by
  have hcounter : ∀ g, Allocated N g → Allocated (N.execute n) g := by
    simp only [Allocated, execute_store, imp_self, implies_true]
  cases hc : N.sent n with
  | none =>
    have heq : N.execute n = N := by simp [LeaseNet.execute, hc]
    rw [heq]
    exact ⟨le_refl _, fun _ h => h, fun _ _ _ _ h => h, fun _ _ _ _ _ h => h,
      fun _ _ _ _ _ h => h, fun _ _ h _ => h⟩
  | some c =>
    by_cases ho : L.owned = some c.generation
    · have hcmd := h.commands n c hc ho
      have hcov : ∀ x, L.state ≠ .terminal → Covered N L c.generation x →
          Covered (N.execute n) L c.generation x := fun x ht hx => hx.execute hc hcmd ht
      refine ⟨by rw [execute_now], hcounter, ?_, ?_, ?_, fun m d hm _ => sent_of_execute hm⟩
      · intro g x hg ht hx
        cases ho.symm.trans hg
        exact hcov x ht hx
      · intro g send m hph hs haw
        have hg : L.owned = some g := by simp [owned, hph]
        cases ho.symm.trans hg
        have hfresh : L.state ≠ .terminal := by
          have := h.phase
          simp only [PhaseOk, hph] at this
          simp [this.1.1]
        exact haw.execute hc (hcov _ hfresh) fun _ => covered_of_accepted hc hcmd hfresh hs.1
      · intro g send m hph hs haw
        cases ho.symm.trans (owned_of_renewWait h.phase hph)
        refine haw.execute hc (fun hx ha => hcov _ (by simp [ha]) (hx ha)) ?_
        exact fun _ hr ha => covered_of_accepted hc hcmd (by simp [ha]) hs.1 hr
    · -- 他人の key への command なら、待っている番号でもない
      refine keeps_of_untouched h.phase (by rw [execute_now]) (by rw [execute_serial]) hcounter
        ?_ ?_ fun m d hm _ => sent_of_execute hm
      · intro g hg
        have hne : g ≠ c.generation := by rintro rfl; exact ho hg
        simp [LeaseNet.execute, hc, update_of_ne hne]
      · intro m hm
        have hne : m ≠ n := by rintro rfl; exact ho (awaited_generation h.phase hm hc)
        simp [LeaseNet.execute, hc, update_of_ne hne]

theorem NetOk.execute (h : NetOk N) (n : Nat) : NetOk (N.execute n) where
  fresh m hm := by
    rw [execute_serial] at hm
    unfold LeaseNet.execute
    split
    · exact h.fresh m hm
    · next c hc =>
      have hne : m ≠ n := by rintro rfl; rw [(h.fresh m hm).1] at hc; cases hc
      simpa [update_of_ne hne] using h.fresh m hm
  once m hm := by
    unfold LeaseNet.execute at hm ⊢
    split
    · next hc => rw [hc] at hm; exact h.once m hm
    · next c hc =>
      rw [hc] at hm
      rcases eq_or_ne m n with rfl | hne
      · simp
      · simp only [update_of_ne hne] at hm ⊢
        exact h.once m hm
  allocated m c hm := by
    simpa only [Allocated, execute_store] using h.allocated m c (sent_of_execute hm)

/-! ## command の送信 -/

theorem NetOk.send (h : NetOk N) (hc : Allocated N c.generation) :
    NetOk (N.send c) where
  fresh m hm := by
    simp only [LeaseNet.send] at hm ⊢
    rw [update_of_ne (by omega)]
    exact h.fresh m (by omega)
  once m hm := by
    simp only [LeaseNet.send] at hm ⊢
    rcases eq_or_ne m N.serial with rfl | hne
    · exact absurd (h.fresh _ (le_refl _)).2 hm
    · rw [update_of_ne hne]
      exact h.once m hm
  allocated m d hm := by
    simp only [LeaseNet.send] at hm
    rcases eq_or_ne m N.serial with rfl | hne
    · rw [update_self] at hm
      cases hm
      exact hc
    · rw [update_of_ne hne] at hm
      exact h.allocated m d hm

theorem keeps_send (hp : PhaseOk N L) (hc : L.owned ≠ some c.generation) :
    Keeps L N (N.send c) := by
  refine keeps_of_untouched hp (le_refl _) (Nat.le_succ _) (fun _ h => h) (fun _ _ => rfl) ?_ ?_
  · intro m hm
    have := awaited_lt hp hm
    simp [LeaseNet.send, update_of_ne (show m ≠ N.serial by omega)]
  · intro m d hm hd
    simp only [LeaseNet.send] at hm
    rcases eq_or_ne m N.serial with rfl | hne
    · rw [update_self] at hm
      cases hm
      exact absurd hd hc
    · rwa [update_of_ne hne] at hm

end SwordFS.Metadata.Lock
