import SwordFS.Infra.Occ
import SwordFS.Metadata.Properties.LockTxn

/-!
# lock の排他

任意個の mount と owner が lock の transaction と lease の command を任意の順に進めるとき、
lease の生きている二つの owner が両立しない lock を持つことはない。

lease の切れた owner は無視されるので、切れた generation が生き返らないことが要る。
generation は counter から一度だけ取られ、その SET NX は一度しか送られない。
-/

namespace SwordFS.Metadata.Lock

open Infra Cmd

/-! ## system -/

/-- lock Hash と counter への transaction -/
inductive LockOp where
  | setPosix (generation kernelOwner : Nat) (ino : InodeID) (remaining : Nat → Nat)
      (range : PosixRange)
  | setFlock (generation kernelOwner : Nat) (ino : InodeID) (remaining : Nat → Nat)
      (type : FlockType)
  | cleanupStale (flock : Bool) (ino : InodeID) (remaining : Nat → Nat) (page : Field → Bool)
  | allocateGeneration

/-- 操作の transaction。取った generation があれば返す -/
def LockOp.txn : LockOp → LockTxn (Option Nat)
  | .setPosix generation kernelOwner ino remaining range => do
    Lock.setPosix generation kernelOwner ino remaining range
    pure none
  | .setFlock generation kernelOwner ino remaining type => do
    let _ ← Lock.setFlock generation kernelOwner ino remaining type
    pure none
  | .cleanupStale flock ino remaining page => do
    Lock.cleanupStale flock ino remaining page
    pure none
  | .allocateGeneration => do
    let generation ← Lock.allocateGeneration
    pure (some generation)

/-- 実行中の client と、SET NX をまだ実行していない generation -/
structure LockSystem (ι : Type) where
  cluster : Cluster ι LockOp Key Val Status (Option Nat)
  unsent : List Nat

/-- client と環境の動き。lease の期限切れと DEL は同じ `removeLease` -/
inductive LockEvent (ι : Type) where
  | start (i : ι) (op : LockOp)
  | discard (i : ι)
  | watch (i : ι) (k : Key)
  | get (i : ι)
  | exec (i : ι)
  | createLease (generation : Nat)
  | renewLease (generation : Nat)
  | removeLease (generation : Nat)

namespace LockSystem

def formatted (ι : Type) : LockSystem ι where
  cluster := { server := ⟨formattedLocks, fun _ => 0⟩, running := fun _ => none }
  unsent := []

variable {ι : Type} [DecidableEq ι]

def send (S : LockSystem ι) (e : Event ι LockOp Key Val) : LockSystem ι :=
  { S with cluster := S.cluster.step LockOp.txn e }

/--
一つの動き。`AllocateGeneration` が取った generation の SET NX は一度だけ送られ、
応答が失われても、いつ実行されてもよい。
-/
def step (S : LockSystem ι) : LockEvent ι → LockSystem ι
  | .start i op => S.send (.start i op)
  | .discard i => S.send (.discard i)
  | .watch i k => S.send (.watch i k)
  | .get i => S.send (.get i)
  | .exec i =>
    { S.send (.exec i) with
      unsent := ((S.cluster.exec? i).bind fun r => r.1).toList ++ S.unsent }
  | .createLease g =>
    if g ∈ S.unsent then
      { S.send (.command [LockCmd.createOwnerLease g]) with unsent := S.unsent.erase g }
    else S
  | .renewLease g => S.send (.command [LockCmd.renewOwnerLease g])
  | .removeLease g => S.send (.command [LockCmd.removeOwnerLease g])

def run (S : LockSystem ι) (es : List (LockEvent ι)) : LockSystem ι := es.foldl step S

def store (S : LockSystem ι) : LockStore := S.cluster.server.store

end LockSystem

/-! ## 排他 -/

def Held (s : LockStore) (flock : Bool) (ino : InodeID) (generation kernelOwner : Nat)
    (data : Record) : Prop :=
  field s flock ino generation kernelOwner = some data ∧ Live s generation

def HoldsRange (s : LockStore) (ino : InodeID) (generation kernelOwner : Nat) (r : Interval) :
    Prop := ∃ ranges, Held s false ino generation kernelOwner (.posix ranges) ∧ r ∈ ranges

def HoldsFlock (s : LockStore) (ino : InodeID) (generation kernelOwner : Nat) (t : FlockType) :
    Prop := Held s true ino generation kernelOwner (.flock t)

/-- 異なる owner は、一方が排他的な lock を同時に持たない -/
structure Exclusive (s : LockStore) : Prop where
  posix : ∀ ino g k g' k' r r', ¬ (g = g' ∧ k = k') → HoldsRange s ino g k r →
    HoldsRange s ino g' k' r' → r.type = .write → overlaps r r' = false
  flock : ∀ ino g k g' k' t, ¬ (g = g' ∧ k = k') → HoldsFlock s ino g k .exclusive →
    ¬ HoldsFlock s ino g' k' t

variable {s s' : LockStore} {ino : InodeID} {g k generation kernelOwner : Nat}

theorem overlaps_comm (a b : Interval) : overlaps a b = overlaps b a := Bool.and_comm ..

theorem Exclusive.mono (h : Exclusive s)
    (hheld : ∀ fl ino g k data, Held s' fl ino g k data → Held s fl ino g k data) :
    Exclusive s' where
  posix := by
    rintro ino g k g' k' r r' hne ⟨rs, hr, hmem⟩ ⟨rs', hr', hmem'⟩ hw
    exact h.posix ino g k g' k' r r' hne ⟨rs, hheld _ _ _ _ _ hr, hmem⟩
      ⟨rs', hheld _ _ _ _ _ hr', hmem'⟩ hw
  flock := fun ino g k g' k' t hne hx ht =>
    h.flock ino g k g' k' t hne (hheld _ _ _ _ _ hx) (hheld _ _ _ _ _ ht)

variable {flock : Bool}

theorem Replaces.held (h : Replaces s s' flock ino generation kernelOwner data)
    {rec : Record} (hh : Held s' fl ino' g k rec) :
    Held s fl ino' g k rec ∧ ¬ (fl = flock ∧ ino' = ino ∧ g = generation ∧ k = kernelOwner) ∨
      fl = flock ∧ ino' = ino ∧ (g = generation ∧ k = kernelOwner) ∧ data = some rec := by
  obtain ⟨hf, hl⟩ := hh
  have hlive : Live s g := by
    rw [Live, ← h.other (.ownerLease g) (by simp)]
    exact hl
  by_cases hkey : fl = flock ∧ ino' = ino
  · obtain ⟨rfl, rfl⟩ := hkey
    rw [h.field] at hf
    split at hf
    · next ho => exact .inr ⟨rfl, rfl, ho, hf⟩
    · next ho => exact .inl ⟨⟨hf, hlive⟩, fun hc => ho hc.2.2⟩
  · refine .inl ⟨⟨?_, hlive⟩, fun hc => hkey ⟨hc.1, hc.2.1⟩⟩
    rw [Lock.field, h.other (.lock fl ino') (by simpa using hkey)] at hf
    exact hf

theorem Exclusive.setPosix (h : Exclusive s) {ws : List LockCmd}
    (he : (Lock.setPosix generation kernelOwner ino remaining range).eval s [] = .ok (u, ws)) :
    Exclusive (applyAll ws s) := by
  obtain ⟨hlive, hnonempty, owned, hrep, howned⟩ := setPosix_ok he
  -- 新しい値と、他の owner の値
  have hnew : ∀ g k r r', r ∈ owned → HoldsRange s ino g k r' →
      ¬ (g = generation ∧ k = kernelOwner) → r.type = .write ∨ r'.type = .write →
      overlaps r r' = false := by
    rintro g k r r' hr ⟨rs', ⟨hf, hl⟩, hr'⟩ hne hw
    rw [← Bool.not_eq_true]
    intro hov
    obtain ⟨hrne, hcov⟩ := howned r hr
    obtain ⟨p, hc, hc'⟩ :=
      exists_covers_of_overlaps hrne (hnonempty g k rs' hf hl r' hr') hov
    rcases hcov p r.type hc with ⟨ranges, q, hfield, hq, hcq⟩ | hfree
    · have hq' : HoldsRange s ino generation kernelOwner q := ⟨ranges, ⟨hfield, hlive⟩, hq⟩
      have hov' := overlaps_of_covers hcq hc'
      rcases hw with hw | hw
      · rw [h.posix ino _ _ _ _ q r' (fun hc => hne ⟨hc.1.symm, hc.2.symm⟩) hq' ⟨rs', ⟨hf, hl⟩, hr'⟩
          (hcq.2.2.trans hw)] at hov'
        cases hov'
      · rw [overlaps_comm, h.posix ino _ _ _ _ r' q hne ⟨rs', ⟨hf, hl⟩, hr'⟩ hq' hw] at hov'
        cases hov'
    · obtain ⟨h1, h2⟩ := hfree g k rs' r' hf hl hne hr' hc'
      exact hw.elim h1 h2
  -- 変更の後に持つ範囲は、元からの範囲か、新しい範囲である
  have hold : ∀ ino' g k r, HoldsRange (applyAll ws s) ino' g k r →
      (HoldsRange s ino' g k r ∧ ¬ (ino' = ino ∧ g = generation ∧ k = kernelOwner)) ∨
        ino' = ino ∧ (g = generation ∧ k = kernelOwner) ∧ r ∈ owned := by
    rintro ino' g k r ⟨rs, hh, hr⟩
    rcases hrep.held hh with ⟨hh, hno⟩ | ⟨-, hi, ho, hdata⟩
    · exact .inl ⟨⟨rs, hh, hr⟩, fun hc => hno ⟨rfl, hc⟩⟩
    · split at hdata
      · cases hdata
      · cases hdata
        exact .inr ⟨hi, ho, hr⟩
  refine ⟨fun ino' g k g' k' r r' hne hr hr' hw => ?_, fun ino' g k g' k' t hne hx ht => ?_⟩
  · rcases hold ino' g k r hr with ⟨hr, hno⟩ | ⟨rfl, ⟨rfl, rfl⟩, hr⟩ <;>
      rcases hold ino' g' k' r' hr' with ⟨hr', hno'⟩ | ⟨hi, ⟨rfl, rfl⟩, hr'⟩
    · exact h.posix ino' g k g' k' r r' hne hr hr' hw
    · subst hi
      rw [overlaps_comm]
      exact hnew g k r' r hr' hr hne (.inr hw)
    · exact hnew g' k' r r' hr hr' (fun hc => hne ⟨hc.1.symm, hc.2.symm⟩) (.inl hw)
    · exact absurd ⟨rfl, rfl⟩ hne
  · have hback : ∀ {g k t}, HoldsFlock (applyAll ws s) ino' g k t → HoldsFlock s ino' g k t :=
      fun hh => (hrep.held hh).elim (·.1) fun hc => nomatch hc.1
    exact h.flock ino' g k g' k' t hne (hback hx) (hback ht)

theorem Exclusive.setFlock (h : Exclusive s) {ws : List LockCmd}
    (he : (Lock.setFlock generation kernelOwner ino remaining type).eval s [] =
      .ok (released, ws)) : Exclusive (applyAll ws s) := by
  obtain ⟨-, data, hrep, hdata⟩ := setFlock_ok he
  have hold : ∀ ino' g k t, HoldsFlock (applyAll ws s) ino' g k t →
      (HoldsFlock s ino' g k t ∧ ¬ (ino' = ino ∧ g = generation ∧ k = kernelOwner)) ∨
        ino' = ino ∧ (g = generation ∧ k = kernelOwner) ∧ t = type ∧ data = some (.flock type) := by
    intro ino' g k t hh
    rcases hrep.held hh with ⟨hh, hno⟩ | ⟨-, hi, ho, hd⟩
    · exact .inl ⟨hh, fun hc => hno ⟨rfl, hc⟩⟩
    · rcases hdata with rfl | ⟨rfl, -⟩
      · cases hd
      · cases hd
        exact .inr ⟨hi, ho, rfl, rfl⟩
  -- 新しい値は、他の owner の値と両立する
  have hnew : ∀ g k t, data = some (.flock type) → HoldsFlock s ino g k t →
      ¬ (g = generation ∧ k = kernelOwner) → type ≠ .exclusive ∧ t ≠ .exclusive := by
    intro g k t hd hh hne
    rcases hdata with rfl | ⟨-, hfree⟩
    · cases hd
    · exact hfree g k t hh.1 hh.2 hne
  refine ⟨fun ino' g k g' k' r r' hne hr hr' hw => ?_, fun ino' g k g' k' t hne hx ht => ?_⟩
  · have hback : ∀ {g k r}, HoldsRange (applyAll ws s) ino' g k r →
        HoldsRange s ino' g k r := by
      rintro g k r ⟨rs, hh, hr⟩
      exact (hrep.held hh).elim (fun hc => ⟨rs, hc.1, hr⟩) fun hc => nomatch hc.1
    exact h.posix ino' g k g' k' r r' hne (hback hr) (hback hr') hw
  · rcases hold ino' g k _ hx with ⟨hx, hno⟩ | ⟨rfl, ⟨rfl, rfl⟩, hxt, hd⟩ <;>
      rcases hold ino' g' k' t ht with ⟨ht, hno'⟩ | ⟨hi, ⟨rfl, rfl⟩, htt, hd'⟩
    · exact h.flock ino' g k g' k' t hne hx ht
    · subst hi
      exact (hnew g k _ hd' hx hne).2 rfl
    · exact (hnew g' k' t hd ht fun hc => hne ⟨hc.1.symm, hc.2.symm⟩).1 hxt.symm
    · exact hne ⟨rfl, rfl⟩

theorem Shrinks.held (h : Shrinks s s' flock ino)
    (hh : Held s' fl ino' g k data) : Held s fl ino' g k data := by
  obtain ⟨hf, hl⟩ := hh
  refine ⟨?_, by rw [Live, ← h.other (.ownerLease g) (by simp)]; exact hl⟩
  by_cases hkey : fl = flock ∧ ino' = ino
  · obtain ⟨rfl, rfl⟩ := hkey
    exact h.field g k data hf
  · rw [Lock.field, h.other (.lock fl ino') (by simpa using hkey)] at hf
    exact hf

/-! ## 不変条件 -/

/-- generation `g` は counter から取られ、SET NX は実行されたか送られない -/
def Spent (s : LockStore) (unsent : List Nat) (g : Nat) : Prop :=
  (∃ c, s .ownerGeneration = some c ∧ g ≤ c) ∧ g ∉ unsent

/-- run のどの時点でも成り立つ、store と未送の generation の条件 -/
structure LocksOk (s : LockStore) (unsent : List Nat) : Prop where
  exclusive : Exclusive s
  /-- lease のある generation は使われたもの -/
  live : ∀ g, Live s g → Spent s unsent g
  /-- field の generation は使われたもの -/
  fields : ∀ fl ino g k data, field s fl ino g k = some data → Spent s unsent g
  counter : ∃ c, s .ownerGeneration = some c ∧ ∀ g ∈ unsent, g ≤ c
  nodup : unsent.Nodup

variable {unsent : List Nat} {ws : List LockCmd}

section

variable (h : LocksOk s unsent)
include h

theorem LocksOk.of_hash (hex : Exclusive s')
    (hother : ∀ key, key ≠ .lock flock ino → s' key = s key)
    (hfield : ∀ g k data, field s' flock ino g k = some data →
      (∃ data', field s flock ino g k = some data') ∨ Live s g) : LocksOk s' unsent := by
  have hgen : s' .ownerGeneration = s .ownerGeneration := hother _ (by simp)
  have hspent : ∀ g, Spent s unsent g → Spent s' unsent g := fun g hs => by
    rw [Spent, hgen]
    exact hs
  refine ⟨hex, fun g hl => hspent g (h.live g ?_), fun fl ino' g k data hf => hspent g ?_, ?_, h.nodup⟩
  · rw [Live, ← hother (.ownerLease g) (by simp)]
    exact hl
  · by_cases hkey : fl = flock ∧ ino' = ino
    · obtain ⟨rfl, rfl⟩ := hkey
      rcases hfield g k data hf with ⟨data', hf'⟩ | hl
      · exact h.fields _ _ _ _ _ hf'
      · exact h.live g hl
    · rw [Lock.field, hother (.lock fl ino') (by simpa using hkey)] at hf
      exact h.fields fl ino' g k data hf
  · rw [hgen]
    exact h.counter

theorem LocksOk.replaces (hex : Exclusive s') (hl : Live s generation)
    (hrep : Replaces s s' flock ino generation kernelOwner data) : LocksOk s' unsent := by
  refine h.of_hash hex hrep.other fun g k d hf => ?_
  rw [hrep.field] at hf
  split at hf
  · next ho => exact .inr (ho.1 ▸ hl)
  · exact .inl ⟨d, hf⟩

/-- 成功した transaction は条件を保つ。取った generation は未送に加わる -/
theorem LocksOk.commit {op : LockOp} (he : op.txn.eval s [] = .ok (x, ws)) :
    LocksOk (applyAll ws s) (x.toList ++ unsent) := by
  cases op with
  | setPosix generation kernelOwner ino remaining range =>
    simp only [LockOp.txn, Txn.eval_bind_ok, Txn.eval_pure_ok] at he
    obtain ⟨_, _, he, rfl, rfl⟩ := he
    obtain ⟨hl, -, owned, hrep, -⟩ := setPosix_ok he
    exact h.replaces (h.exclusive.setPosix he) hl hrep
  | setFlock generation kernelOwner ino remaining type =>
    simp only [LockOp.txn, Txn.eval_bind_ok, Txn.eval_pure_ok] at he
    obtain ⟨_, _, he, rfl, rfl⟩ := he
    obtain ⟨hl, data, hrep, -⟩ := setFlock_ok he
    exact h.replaces (h.exclusive.setFlock he) hl hrep
  | cleanupStale flock ino remaining page =>
    simp only [LockOp.txn, Txn.eval_bind_ok, Txn.eval_pure_ok] at he
    obtain ⟨_, _, he, rfl, rfl⟩ := he
    have hsh := cleanupStale_ok he
    refine h.of_hash (h.exclusive.mono fun _ _ _ _ _ hh => hsh.held hh) hsh.other ?_
    exact fun g k data hf => .inl ⟨data, hsh.field g k data hf⟩
  | allocateGeneration =>
    simp only [LockOp.txn, Txn.eval_bind_ok, Txn.eval_pure_ok] at he
    obtain ⟨g, _, he, rfl, rfl⟩ := he
    obtain ⟨previous, hp, rfl, rfl⟩ := allocateGeneration_ok he
    obtain ⟨c, hc, hbound⟩ := h.counter
    obtain rfl : previous = c := Option.some.inj (hp.symm.trans hc)
    have hgen : applyAll [LockCmd.incrGeneration] s .ownerGeneration =
        some (previous + 1) := by
      refine (apply_key LockCmd.incrGeneration s).trans ?_
      show some ((s .ownerGeneration).getD 0 + 1) = _
      rw [hp]
      rfl
    have hother : ∀ key, key ≠ .ownerGeneration →
        applyAll [LockCmd.incrGeneration] s key = s key :=
      fun key hk => apply_of_ne LockCmd.incrGeneration s hk
    -- 使われた generation は新しい generation より小さい
    have hspent : ∀ g, Spent s unsent g →
        Spent (applyAll [LockCmd.incrGeneration] s)
          ((some (previous + 1)).toList ++ unsent) g := by
      rintro g ⟨⟨c, hc', hle⟩, hns⟩
      obtain rfl : previous = c := Option.some.inj (hp.symm.trans hc')
      refine ⟨⟨previous + 1, hgen, hle.trans (Nat.le_succ _)⟩, ?_⟩
      simpa using ⟨(Nat.lt_succ_of_le hle).ne, hns⟩
    have hlock : ∀ fl ino, applyAll [LockCmd.incrGeneration] s (.lock fl ino) =
        s (.lock fl ino) := fun fl ino => hother _ (by simp)
    have hlease : ∀ g, applyAll [LockCmd.incrGeneration] s (.ownerLease g) =
        s (.ownerLease g) := fun g => hother _ (by simp)
    refine ⟨h.exclusive.mono ?_, fun g hl => hspent g (h.live g ?_), fun fl ino g k data hf => ?_,
      ⟨previous + 1, hgen, ?_⟩, ?_⟩
    · rintro fl ino g k data ⟨hf, hl⟩
      rw [Lock.field, hlock] at hf
      rw [Live, hlease] at hl
      exact ⟨hf, hl⟩
    · rw [Live, hlease] at hl
      exact hl
    · rw [Lock.field, hlock] at hf
      exact hspent g (h.fields fl ino g k data hf)
    · simpa using fun g hg => (hbound g hg).trans (Nat.le_succ _)
    · simpa using ⟨fun hm => absurd (hbound _ hm) (Nat.not_succ_le_self _), h.nodup⟩

theorem LocksOk.lease {c : LockCmd} (hkey : c.key = .ownerLease g) (hsub : unsent'.Sublist unsent)
    (hlive : Live (c.apply s) g → Live s g ∨ g ∈ unsent ∧ g ∉ unsent') :
    LocksOk (c.apply s) unsent' := by
  have hother : ∀ key, key ≠ .ownerLease g → c.apply s key = s key :=
    fun key hk => c.apply_of_ne s (hkey ▸ hk)
  have hgen : c.apply s .ownerGeneration = s .ownerGeneration := hother _ (by simp)
  have hfield : ∀ fl ino g' k, field (c.apply s) fl ino g' k = field s fl ino g' k := by
    intro fl ino g' k
    rw [Lock.field, hother (.lock fl ino) (by simp)]
    rfl
  have hlive' : ∀ g', Live (c.apply s) g' →
      Live s g' ∨ g' = g ∧ g ∈ unsent ∧ g ∉ unsent' := by
    intro g' hl
    by_cases hg : g' = g
    · subst hg
      exact (hlive hl).imp id fun hc => ⟨rfl, hc⟩
    · refine .inl ?_
      rw [Live, ← hother (.ownerLease g') (by simpa using hg)]
      exact hl
  have hspent : ∀ g', Spent s unsent g' → Spent (c.apply s) unsent' g' := by
    rintro g' ⟨hc, hns⟩
    exact ⟨by rw [hgen]; exact hc, fun hm => hns (hsub.subset hm)⟩
  obtain ⟨cnt, hcnt, hbound⟩ := h.counter
  refine ⟨h.exclusive.mono ?_, fun g' hl => ?_, fun fl ino g' k data hf => ?_, ?_, h.nodup.sublist hsub⟩
  · -- 初めて生きる generation の field はまだ無い
    rintro fl ino g' k data ⟨hf, hl⟩
    rw [hfield] at hf
    rcases hlive' g' hl with hl | ⟨rfl, hm, -⟩
    · exact ⟨hf, hl⟩
    · exact absurd hm (h.fields fl ino g' k data hf).2
  · rcases hlive' g' hl with hl | ⟨rfl, hm, hns⟩
    · exact hspent g' (h.live g' hl)
    · exact ⟨⟨cnt, hgen.trans hcnt, hbound g' hm⟩, hns⟩
  · rw [hfield] at hf
    exact hspent g' (h.fields fl ino g' k data hf)
  · exact ⟨cnt, hgen.trans hcnt, fun g' hg' => hbound g' (hsub.subset hg')⟩

end

namespace LockSystem

variable {ι : Type} [DecidableEq ι] {S : LockSystem ι}

/-- run のどの時点でも成り立つ条件 -/
structure Inv (S : LockSystem ι) : Prop where
  attempts : S.cluster.Ok LockOp.txn
  locks : LocksOk S.store S.unsent

omit [DecidableEq ι] in
theorem inv_formatted : (formatted ι).Inv where
  attempts := fun _ _ _ h => nomatch h
  locks :=
    { exclusive :=
        { posix := fun _ _ _ _ _ _ _ _ ⟨_, hh, _⟩ => absurd rfl hh.2
          flock := fun _ _ _ _ _ _ _ hh => absurd rfl hh.2 }
      live := fun _ h => absurd rfl h
      fields := fun _ _ _ _ _ h => nomatch h
      counter := ⟨0, rfl, fun _ h => absurd h List.not_mem_nil⟩
      nodup := List.nodup_nil }

theorem Inv.send (h : S.Inv) (hs : (S.send e).store = S.store) :
    (S.send e).Inv := ⟨h.attempts.step e, hs ▸ h.locks⟩

theorem Inv.step (h : S.Inv) (e : LockEvent ι) : (S.step e).Inv := by
  cases e with
  | start i op => exact h.send rfl
  | discard i => exact h.send rfl
  | watch i k => exact h.send rfl
  | get i => exact h.send rfl
  | exec i =>
    refine ⟨h.attempts.step (.exec i), ?_⟩
    cases he : S.cluster.exec? i with
    | none =>
      simp only [LockSystem.step, LockSystem.send, LockSystem.store, Cluster.step, he]
      exact h.locks
    | some r =>
      obtain ⟨x, ws⟩ := r
      obtain ⟨op, a, -, heval⟩ := h.attempts.exec he
      have hcommit := h.locks.commit heval
      simp only [LockSystem.step, LockSystem.send, LockSystem.store, Cluster.step, he,
        Option.map_some, Option.getD_some, Option.bind_some, Server.execAll_store]
      exact hcommit
  | createLease g =>
    unfold LockSystem.step
    dsimp only
    split
    · next hg =>
      refine ⟨h.attempts.step (.command [LockCmd.createOwnerLease g]),
        h.locks.lease rfl List.erase_sublist fun _ => .inr ⟨hg, ?_⟩⟩
      exact fun hm => ((List.Nodup.mem_erase_iff h.locks.nodup).mp hm).1 rfl
    · exact h
  | renewLease g =>
    refine ⟨h.attempts.step (.command [LockCmd.renewOwnerLease g]),
      h.locks.lease rfl (List.Sublist.refl _) fun hl => .inl ?_⟩
    have heq : (LockCmd.renewOwnerLease g).apply S.store (.ownerLease g) =
        S.store (.ownerLease g) := apply_key (LockCmd.renewOwnerLease g) S.store
    rw [Live, heq] at hl
    exact hl
  | removeLease g =>
    refine ⟨h.attempts.step (.command [LockCmd.removeOwnerLease g]),
      h.locks.lease rfl (List.Sublist.refl _) fun hl => ?_⟩
    have heq : (LockCmd.removeOwnerLease g).apply S.store (.ownerLease g) = none :=
      apply_key (LockCmd.removeOwnerLease g) S.store
    exact absurd heq hl

theorem Inv.run (h : S.Inv) (es : List (LockEvent ι)) : (S.run es).Inv := by
  induction es generalizing S with
  | nil => exact h
  | cons e es ih => exact ih (h.step e)

end LockSystem

/--
任意個の client が lock の transaction と lease の command を任意の順に進めて得られる store では、
lease の生きている異なる二つの owner の一方が書き込みの範囲を持てば、他方の範囲はそれと重ならず、
一方が排他の flock を持てば、他方は flock を持たない。
-/
theorem lock_mutual_exclusion {ι : Type} [DecidableEq ι] (es : List (LockEvent ι)) :
    let s := ((LockSystem.formatted ι).run es).store
    (∀ ino g k g' k' r r', ¬ (g = g' ∧ k = k') → HoldsRange s ino g k r →
      HoldsRange s ino g' k' r' → r.type = .write → overlaps r r' = false) ∧
    (∀ ino g k g' k' t, ¬ (g = g' ∧ k = k') → HoldsFlock s ino g k .exclusive →
      ¬ HoldsFlock s ino g' k' t) := by
  intro s
  have hex := (LockSystem.inv_formatted.run es).locks.exclusive
  exact ⟨hex.posix, hex.flock⟩

end SwordFS.Metadata.Lock
