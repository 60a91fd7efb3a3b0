import SwordFS.Infra.Interleave
import SwordFS.Metadata.Properties.NamespaceConcurrency
import SwordFS.Metadata.Properties.NamespaceWrites
import SwordFS.Metadata.Redis.ReclaimCoordinator

/-!
# 回収と Link の排他

一つの回収の呼び出しを、任意個の client の namespace の transaction と交互に進める。
呼び出しの試行は一回ごとに新しい接続を使う。返事の失われた EXEC は接続に残り、
後から環境の動きとして効くことがある。ほかの回収の呼び出しは環境の動きに含まれる。

主な定理は `reclaim_link_exclusion` である。
-/

namespace SwordFS.Metadata

open Infra

/-! ## system -/

/-- namespace の system と、回収の呼び出しが使った接続の数。接続 `.inr k` は呼び出しのもの -/
structure Deployment (ι : Type) where
  sys : NamespaceSystem (ι ⊕ Nat)
  conns : Nat

/-- 一回の通信の結末 -/
inductive Reply where
  | delivered
  /-- 返事が失われた。送った EXEC は、後で効くかもしれず、効かないかもしれない -/
  | lost
  | failed (msg : String)

namespace Deployment

variable {ι : Type} [DecidableEq ι]

def store (d : Deployment ι) : Redis := d.sys.store

/-- 環境の動き。呼び出しの接続で新しい操作を始めることはない -/
def envStep (d : Deployment ι) (e : NamespaceEvent (ι ⊕ Nat)) : Deployment ι :=
  match e with
  | .start (.inr _) _ => d
  | .allocateInode (.inr _) => d
  | e => { d with sys := d.sys.step e }

/-- 新しい接続で transaction を始める。WATCH と読みは環境の動きとして進む -/
def acquire (op : NamespaceOp) : Prog Reply (Deployment ι) Nat :=
  Prog.step fun _ d => (d.conns, ⟨d.sys.step (.start (.inr d.conns) op), d.conns + 1⟩)

/-- `Commit` の返事を待つ。`none` は、効果の無いことの確かな失敗であり、やり直される -/
def awaitCommit (k : Nat) : Prog Reply (Deployment ι) (Option (Result Unit)) :=
  Prog.step fun c d =>
    let discarded : Deployment ι := { d with sys := d.sys.step (.discard (.inr k)) }
    match c.ans 0 with
    | .lost =>
      (some (.error (.outcomeUnknown "Redis transaction commit is ambiguous after EXEC")), d)
    | .failed msg => (some (.error (.ioError msg)), discarded)
    | .delivered =>
      match d.sys.cluster.running (.inr k) with
      | some (_, ⟨_, .ret (.error e)⟩) => (some (.error e), discarded)
      | some (_, ⟨_, .ret (.ok _)⟩) =>
        (if (d.sys.cluster.exec? (.inr k)).isSome then some (.ok ()) else none,
          { d with sys := d.sys.step (.exec (.inr k)) })
      | _ => (none, discarded)

def transact (op : NamespaceOp) : Nat → Prog Reply (Deployment ι) (Result Unit)
  | 0 => pure (.error (.unavailable "Redis transaction retry limit exceeded"))
  | retries + 1 => do
    let k ← acquire op
    match ← awaitCommit k with
    | none => transact op retries
    | some r => pure r

def getInode (ino : InodeID) : Prog Reply (Deployment ι) (Result SwordFsInode) :=
  Prog.step fun c d =>
    (match c.ans 0 with
      | .lost => .error (.unavailable "Redis GET unavailable")
      | .failed msg => .error (.ioError msg)
      | .delivered =>
        match d.store (.inode ino) with
        | none => .error (.notFound "Redis key not found")
        | some n =>
          if n.ino = 0 then .error (.malformed "Malformed inode record: decode failure")
          else .ok n, d)

def prepareReclaimCall (cx : MetaContext) (ino : InodeID) (maxAttempts retries : Nat) :
    Prog Reply (Deployment ι) (Result Unit) :=
  runReclaimWithOutcomeReconciliation maxAttempts (transact (.prepareReclaim cx ino) retries)
    (getInode ino)

end Deployment

/-! ## 一歩が store にすること -/

namespace NamespaceSystem

variable {ι : Type} [DecidableEq ι] {S : NamespaceSystem ι}

/-- 一歩は store を変えないか、一つの transaction を原子的に実行する -/
theorem Inv.store_step (h : S.Inv) (e : NamespaceEvent ι) :
    (S.step e).store = S.store ∨ ∃ i op a u ws, e = .exec i ∧
      S.cluster.running i = some (op, a) ∧ op.txn.eval S.store [] = .ok (u, ws) ∧
      (S.step e).store = Cmd.applyAll ws S.store := by
  cases e with
  | start i op =>
    refine .inl ?_
    simp only [NamespaceSystem.step]
    split <;> rfl
  | exec i =>
    cases he : S.cluster.exec? i with
    | none =>
      refine .inl ?_
      simp [NamespaceSystem.store, NamespaceSystem.step, NamespaceSystem.send, Cluster.step, he]
    | some r =>
      obtain ⟨u, ws⟩ := r
      obtain ⟨op, a, hrun, heval⟩ := h.attempts.exec he
      refine .inr ⟨i, op, a, u, ws, rfl, hrun, heval, ?_⟩
      simp [NamespaceSystem.store, NamespaceSystem.step, NamespaceSystem.send, Cluster.step, he]
  | allocateInode | lostAllocation | discard | watch | get => exact .inl rfl

theorem running_advance {c : Cluster ι NamespaceOp Key Val Status Unit}
    (h : (c.advance i f).running j = some (op, a)) : ∃ a', c.running j = some (op, a') := by
  simp only [Cluster.advance, Cluster.setRunning] at h
  by_cases hji : j = i
  · subst hji
    rw [Function.update_self] at h
    obtain ⟨⟨op', a'⟩, hrun, heq⟩ := Option.map_eq_some_iff.mp h
    cases heq
    exact ⟨a', hrun⟩
  · rw [Function.update_of_ne hji] at h
    exact ⟨a, h⟩

theorem running_step (h : (S.step e).cluster.running j = some (op, a)) :
    (∃ a', S.cluster.running j = some (op, a')) ∨ e = .start j op := by
  cases e with
  | lostAllocation => exact .inl ⟨a, h⟩
  | start i op' =>
    simp only [NamespaceSystem.step] at h
    split at h
    · by_cases hji : j = i
      · subst hji
        simp only [send, Cluster.step, Cluster.setRunning, Function.update_self] at h
        cases h
        exact .inr rfl
      · refine .inl ⟨a, ?_⟩
        simpa [send, Cluster.step, Cluster.setRunning, hji] using h
    · exact .inl ⟨a, h⟩
  | watch i k => exact .inl (running_advance h)
  | get i => exact .inl (running_advance h)
  | allocateInode i | discard i | exec i =>
    by_cases hji : j = i
    · subst hji
      simp [NamespaceSystem.step, send, Cluster.step, Cluster.setRunning] at h
    · refine .inl ⟨a, ?_⟩
      simpa [NamespaceSystem.step, send, Cluster.step, Cluster.setRunning, hji] using h

/-- 使われたことのある番号。今は取られていないので、二度と使われない -/
def Spent (S : NamespaceSystem ι) (y : InodeID) : Prop :=
  y ≤ S.nextIno ∧ ∀ i, S.reserved i ≠ some y

omit [DecidableEq ι] in
theorem Inv.spent (h : S.Inv) (hn : S.store (.inode y) = some n) : S.Spent y := by
  refine ⟨h.bounded y (by rw [hn]; exact Option.some_ne_none n), fun i hi => ?_⟩
  rw [(h.unused i y hi).1] at hn
  cases hn

theorem Spent.step (hs : S.Spent y) (e : NamespaceEvent ι) : (S.step e).Spent y := by
  obtain ⟨hle, hres⟩ := hs
  cases e with
  | allocateInode i =>
    refine ⟨hle.trans (Nat.le_succ _), fun j hj => ?_⟩
    by_cases hji : j = i
    · subst hji
      have heq : S.nextIno + 1 = y := by simpa [NamespaceSystem.step] using hj
      rw [← heq] at hle
      exact Nat.not_succ_le_self _ hle
    · exact hres j (by simpa [NamespaceSystem.step, hji] using hj)
  | lostAllocation => exact ⟨hle.trans (Nat.le_succ _), hres⟩
  | start i op =>
    simp only [NamespaceSystem.step]
    split <;> exact ⟨hle, hres⟩
  | exec i =>
    refine ⟨hle, fun j hj => ?_⟩
    simp only [NamespaceSystem.step] at hj
    split at hj
    · by_cases hji : j = i
      · subst hji
        simp at hj
      · exact hres j (by simpa [hji] using hj)
    · exact hres j hj
  | discard | watch | get => exact ⟨hle, hres⟩

theorem Inv.step_absent (h : S.Inv) (hs : S.Spent y) (hy : S.store (.inode y) = none)
    (e : NamespaceEvent ι) : (S.step e).store (.inode y) = none := by
  rcases h.store_step e with heq | ⟨i, op, a, u, ws, -, hrun, heval, heq⟩
  · rw [heq, hy]
  · have hfresh : ∀ x, op.newIno = some x → S.store (.inode x) = none := fun x hx =>
      (h.unused i x (h.owned i op a hrun x hx)).1
    have hcommit : (op.txn.commit S.store).2 = Cmd.applyAll ws S.store :=
      congrArg Prod.snd (Txn.commit_ok_iff.mpr ⟨ws, heval, rfl⟩)
    by_contra hc
    rw [heq, ← hcommit] at hc
    rcases (h.ok.commit hfresh).2 y hc with hc | hc
    · exact hc hy
    · exact hs.2 i (h.owned i op a hrun y hc)

end NamespaceSystem

/-! ## entry と inode -/

section

variable {s : Redis} {a y : InodeID} {n : SwordFsInode}

theorem NamespaceOk.inode_of_hasEntry (h : NamespaceOk s) (he : HasEntry s a y) :
    ∃ n, s (.inode y) = some n := by
  obtain ⟨name, e, hl, rfl⟩ := he
  obtain ⟨m, hm, -⟩ := h.tree.inv.target _ _ (view_entry hl)
  obtain ⟨n, hn, -⟩ := Option.map_eq_some_iff.mp hm
  exact ⟨n, hn⟩

theorem NamespaceOk.not_hasEntry (h : NamespaceOk s) (hn : s (.inode y) = some n)
    (hd : n.isDir = false) (hl : n.attr.nlink = 0) : ¬ HasEntry s a y := by
  rintro ⟨name, e, he, rfl⟩
  have hk : (nodeOf n).kind ≠ .dir := fun hc => by
    rw [isDir_iff_kind.mpr hc] at hd
    cases hd
  have hc := h.tree.inv.counted _ _ (view_node hn)
  rw [Namespace.wanted, if_neg hk, List.count_nil, Nat.cast_zero, add_zero] at hc
  have hempty : (view s).links e.ino = ∅ :=
    Set.encard_eq_zero.mp (hc.trans (congrArg Nat.cast hl))
  have hmem : (a, name) ∈ (view s).links e.ino := ⟨_, view_entry he, rfl⟩
  rw [hempty] at hmem
  exact hmem

end

/-! ## 呼び出し -/

/-- inode `ino` が無いか、名前を持つか、directory -/
def Harmless (ino : InodeID) (s : Redis) : Prop :=
  s (.inode ino) = none ∨
    ∃ n, s (.inode ino) = some n ∧ (n.attr.nlink ≠ 0 ∨ n.isDir = true)

namespace Deployment

variable {ι : Type} [DecidableEq ι] {cx : MetaContext} {ino : InodeID} {d d' : Deployment ι}

/-- 一歩で system にできること。呼び出しの接続では `op` しか始まらない -/
def Moves (op : NamespaceOp) (d d' : Deployment ι) : Prop :=
  d'.sys = d.sys ∨ ∃ e, d'.sys = d.sys.step e ∧ ∀ k op', e = .start (.inr k) op' → op' = op

/-- 呼び出しの間、常に成り立つ条件 -/
structure Ok (op : NamespaceOp) (d : Deployment ι) : Prop where
  inv : d.sys.Inv
  own : ∀ k op' a, d.sys.cluster.running (.inr k) = some (op', a) → op' = op

variable {op : NamespaceOp}

theorem Ok.moves (h : d.Ok op) (hm : d.Moves op d') : d'.Ok op := by
  rcases hm with heq | ⟨e, heq, hstart⟩
  · exact ⟨heq ▸ h.inv, heq ▸ h.own⟩
  · refine ⟨heq ▸ h.inv.step e, fun k op' a hrun => ?_⟩
    rw [heq] at hrun
    rcases NamespaceSystem.running_step hrun with ⟨a', ha'⟩ | he
    · exact h.own k op' a' ha'
    · exact hstart k op' he

theorem moves_envStep (d : Deployment ι) (e : NamespaceEvent (ι ⊕ Nat)) :
    d.Moves op (d.envStep e) := by
  unfold envStep
  split
  · exact .inl rfl
  · exact .inl rfl
  · next hstart _ => exact .inr ⟨e, rfl, fun k op' he => absurd he (hstart k op')⟩

theorem moves_step (d : Deployment ι) (e : NamespaceEvent (ι ⊕ Nat)) (c : Nat)
    (h : ∀ k op', e = .start (.inr k) op' → op' = op) : d.Moves op ⟨d.sys.step e, c⟩ :=
  .inr ⟨e, rfl, h⟩

theorem guarantees_acquire : (acquire (ι := ι) op).Guarantees (Moves op) :=
  Prog.guarantees_step fun _ d => moves_step d (.start (.inr d.conns) op) _ fun k op' he => by
    cases he
    rfl

theorem guarantees_awaitCommit (k : Nat) : (awaitCommit (ι := ι) k).Guarantees (Moves op) := by
  refine Prog.guarantees_step fun c d => ?_
  have hdiscard : d.Moves op ⟨d.sys.step (.discard (.inr k)), d.conns⟩ :=
    moves_step d (.discard (.inr k)) d.conns fun _ _ he => nomatch he
  dsimp only
  split
  · exact .inl rfl
  · exact hdiscard
  · split
    · exact hdiscard
    · exact moves_step d (.exec (.inr k)) d.conns fun _ _ he => nomatch he
    · exact hdiscard

theorem guarantees_getInode : (getInode (ι := ι) ino).Guarantees (Moves op) :=
  Prog.guarantees_step fun _ _ => .inl rfl

theorem guarantees_transact : ∀ retries, (transact (ι := ι) op retries).Guarantees (Moves op)
  | 0 => trivial
  | retries + 1 => by
    refine guarantees_acquire.bind fun k => (guarantees_awaitCommit k).bind fun r => ?_
    split
    · exact guarantees_transact retries
    · trivial

theorem guarantees_reclaimLoop {attempt : Prog Reply (Deployment ι) (Result Unit)}
    (ha : attempt.Guarantees (Moves op)) : ∀ (n : Nat) (ambiguous : Status),
    (reclaimLoop attempt (getInode ino) n ambiguous).Guarantees (Moves op)
  | 0, _ => trivial
  | n + 1, _ => by
    refine ha.bind fun r => ?_
    split
    · trivial
    · split
      · trivial
      · refine guarantees_getInode.bind fun r => ?_
        split
        · split <;> trivial
        · split
          · trivial
          · exact guarantees_reclaimLoop ha n _

theorem guarantees_prepareReclaimCall (maxAttempts retries : Nat) :
    (prepareReclaimCall (ι := ι) cx ino maxAttempts retries).Guarantees
      (Moves (.prepareReclaim cx ino)) := by
  unfold prepareReclaimCall runReclaimWithOutcomeReconciliation
  split
  · trivial
  · exact guarantees_reclaimLoop (guarantees_transact retries) _ _

theorem Ok.harmless_of_exec (h : d.Ok (.prepareReclaim cx ino))
    (he : d.sys.cluster.exec? (.inr k) = some (u, ws)) :
    Harmless ino d.store ∨ Harmless ino (d.sys.step (.exec (.inr k))).store := by
  obtain ⟨op, a, hrun, heval⟩ := h.inv.attempts.exec he
  obtain rfl := h.own k op a hrun
  have hstore : (d.sys.step (.exec (.inr k))).store = Cmd.applyAll ws d.store := by
    simp [Deployment.store, NamespaceSystem.store, NamespaceSystem.step, NamespaceSystem.send,
      Cluster.step, he]
  obtain ⟨w, _, heval, hpure⟩ := Txn.eval_bind_ok.mp heval
  obtain ⟨-, rfl⟩ := Txn.eval_pure_ok.mp hpure
  rcases prepareReclaim_cases heval with ⟨-, hn | ⟨n, hn, hl⟩⟩ | ⟨⟨n, hn⟩, -⟩
  · exact .inl (.inl hn)
  · exact .inl (.inr ⟨n, hn, hl.symm⟩)
  · refine .inr (.inl ?_)
    rw [hstore]
    exact hn.gone

theorem avoids_awaitCommit (k : Nat) : (awaitCommit (ι := ι) k).Avoids
    (Ok (.prepareReclaim cx ino)) (fun d => Harmless ino d.store) (· ≠ some (.ok ())) := by
  refine Prog.avoids_step fun c d hd hp hp' => ?_
  dsimp only at hp' ⊢
  split at hp'
  · exact fun hc => nomatch hc
  · exact fun hc => nomatch hc
  · split at hp'
    · exact fun hc => nomatch hc
    · intro hc
      cases he : d.sys.cluster.exec? (.inr k) with
      | none =>
        rw [he] at hc
        cases hc
      | some r => exact (hd.harmless_of_exec he).elim hp hp'
    · exact fun hc => nomatch hc

theorem avoids_transact : ∀ retries, (transact (ι := ι) (.prepareReclaim cx ino) retries).Avoids
    (Ok (.prepareReclaim cx ino)) (fun d => Harmless ino d.store) (· ≠ .ok ())
  | 0 => fun h => nomatch h
  | retries + 1 => by
    have hacquire : (acquire (ι := ι) (.prepareReclaim cx ino)).Avoids
        (Ok (.prepareReclaim cx ino)) (fun d => Harmless ino d.store) fun _ => True :=
      Prog.avoids_step fun _ _ _ _ _ => trivial
    refine hacquire.bind fun k _ => (avoids_awaitCommit k).bind fun r hr => ?_
    split
    · exact avoids_transact retries
    · exact fun hc => hr (congrArg some hc)

omit [DecidableEq ι] in
/-- 読み直しで inode が無いか名前があれば、その時点で `Harmless` -/
theorem avoids_getInode : (getInode (ι := ι) ino).Avoids (Ok op) (fun d => Harmless ino d.store)
    fun r => match r with
      | .error e => e.isNotFound = false
      | .ok n => n.attr.nlink = 0 := by
  refine Prog.avoids_step fun c d _ hp _ => ?_
  dsimp only
  cases c.ans 0 with
  | lost => rfl
  | failed msg => rfl
  | delivered =>
    cases hn : d.store (.inode ino) with
    | none => exact absurd (.inl hn) hp
    | some n =>
      dsimp only
      split
      · next heq => split at heq <;> cases heq; rfl
      · next heq =>
        split at heq <;> cases heq
        by_contra hl
        exact hp (.inr ⟨n, hn, .inl hl⟩)

theorem avoids_reclaimLoop (retries : Nat) : ∀ (n : Nat) (ambiguous : Status),
    (reclaimLoop (transact (ι := ι) (.prepareReclaim cx ino) retries) (getInode ino) n
      ambiguous).Avoids (Ok (.prepareReclaim cx ino)) (fun d => Harmless ino d.store) (· ≠ .ok ())
  | 0, _ => fun h => nomatch h
  | n + 1, _ => by
    refine (avoids_transact retries).bind fun r hr => ?_
    split
    · exact absurd rfl hr
    · split
      · exact fun hc => nomatch hc
      · refine avoids_getInode.bind fun r hr => ?_
        split
        · split
          · next h => rw [hr] at h; cases h
          · exact fun hc => nomatch hc
        · split
          · next h => exact absurd hr h
          · exact avoids_reclaimLoop retries n _

theorem avoids_prepareReclaimCall (maxAttempts retries : Nat) :
    (prepareReclaimCall (ι := ι) cx ino maxAttempts retries).Avoids
      (Ok (.prepareReclaim cx ino)) (fun d => Harmless ino d.store) (· ≠ .ok ()) := by
  unfold prepareReclaimCall runReclaimWithOutcomeReconciliation
  split
  · exact fun hc => nomatch hc
  · exact avoids_reclaimLoop retries _ _

/-! ## 主定理 -/

/-- 一歩で消えた inode には名前が無く、mapping は inode と一緒にしか消えない -/
theorem Ok.moves_store (h : d.Ok op) (hm : d.Moves op d') :
    (∀ y n, d.store (.inode y) = some n → d'.store (.inode y) = none → n.isDir = false →
      ∀ a, ¬ HasEntry d.store a y) ∧
    ∀ y, d'.store (.chunkRefs y) ≠ d.store (.chunkRefs y) →
      ∃ n, Reclaimed d.store d'.store y n := by
  have hcases : d'.store = d.store ∨ ∃ (op : NamespaceOp) (u : Unit) (ws : List KvCmd),
      op.txn.eval d.store [] = .ok (u, ws) ∧ d'.store = Cmd.applyAll ws d.store := by
    rcases hm with heq | ⟨e, heq, -⟩
    · exact .inl (congrArg NamespaceSystem.store heq)
    · rcases h.inv.store_step e with hs | ⟨i, op', a, u, ws, -, -, heval, hs⟩
      · exact .inl ((congrArg NamespaceSystem.store heq).trans hs)
      · exact .inr ⟨op', u, ws, heval, (congrArg NamespaceSystem.store heq).trans hs⟩
  rcases hcases with hs | ⟨op', u, ws, heval, hs⟩
  · rw [hs]
    refine ⟨fun y n hn hgone => ?_, fun y hne => absurd rfl hne⟩
    rw [hn] at hgone
    cases hgone
  · rw [hs]
    refine ⟨fun y n hn hgone hd a => ?_, fun y hne =>
      NamespaceOp.chunkRefs_changed h.inv.ok.recorded heval hne⟩
    rcases NamespaceOp.inode_gone h.inv.ok.recorded heval hn hgone with hdir | hl
    · rw [hd] at hdir
      cases hdir
    · exact h.inv.ok.not_hasEntry hn hd hl

/-- 消えた番号の inode は、run の間戻らない -/
structure Gone (op : NamespaceOp) (y : InodeID) (d : Deployment ι) : Prop where
  ok : d.Ok op
  spent : d.sys.Spent y
  absent : d.store (.inode y) = none

theorem Gone.moves (h : d.Gone op y) (hm : d.Moves op d') : d'.Gone op y := by
  refine ⟨h.ok.moves hm, ?_, ?_⟩
  · rcases hm with heq | ⟨e, heq, -⟩
    · exact heq ▸ h.spent
    · exact heq ▸ h.spent.step e
  · rcases hm with heq | ⟨e, heq, -⟩
    · exact (congrArg (NamespaceSystem.store · (.inode y)) heq).trans h.absent
    · exact (congrArg (NamespaceSystem.store · (.inode y)) heq).trans
        (h.ok.inv.step_absent h.spent h.absent e)

theorem Ok.spent_of_moves (h : d.Ok op) (hm : d.Moves op d')
    (hn : d.store (.inode y) = some n) : d'.sys.Spent y := by
  rcases hm with heq | ⟨e, heq, -⟩
  · exact heq ▸ h.inv.spent hn
  · exact heq ▸ (h.inv.spent hn).step e

end Deployment

open Deployment in
/--
回収の呼び出しを任意の環境の下で走らせたどの時点でも、entry の指す inode は存在する。
file の inode が消える一歩では、その前に指す entry が無く、その後は番号が戻ることも
entry を得ることもない。mapping は inode と一緒にしか消えない。
回収が OK を返したなら、呼び出しの間のある時点で、inode は無いか、名前を持つか、directory であった。
-/
theorem reclaim_link_exclusion {ι : Type} [DecidableEq ι] {d : Deployment ι} {cx : MetaContext}
    {ino : InodeID} (h : d.Ok (.prepareReclaim cx ino)) (maxAttempts retries : Nat)
    (ms : List (Move Reply (NamespaceEvent (ι ⊕ Nat)))) :
    let r := fun ms => Running.run envStep ⟨d, prepareReclaimCall cx ino maxAttempts retries⟩ ms
    let s := fun ms => (r ms).state.store
    (∀ a y, HasEntry (s ms) a y → ∃ n, s ms (.inode y) = some n) ∧
    (∀ m y n, s ms (.inode y) = some n → s (ms ++ [m]) (.inode y) = none →
      (n.isDir = false → ∀ a, ¬ HasEntry (s ms) a y) ∧
      ∀ ms', s (ms ++ [m] ++ ms') (.inode y) = none ∧
        ∀ a, ¬ HasEntry (s (ms ++ [m] ++ ms')) a y) ∧
    (∀ m y, s (ms ++ [m]) (.chunkRefs y) ≠ s ms (.chunkRefs y) →
      ∃ n, Reclaimed (s ms) (s (ms ++ [m])) y n) ∧
    ((r ms).prog = .ret (.ok ()) → ∃ ms', ms' <+: ms ∧ Harmless ino (s ms')) := by
  intro r s
  have hwithin : Running.Within envStep (Moves (.prepareReclaim cx ino))
      ⟨d, prepareReclaimCall cx ino maxAttempts retries⟩ :=
    ⟨fun _ => .inl rfl, moves_envStep, guarantees_prepareReclaimCall maxAttempts retries⟩
  have hkeep : ∀ d d' : Deployment ι, d.Ok (.prepareReclaim cx ino) →
      d.Moves (.prepareReclaim cx ino) d' → d'.Ok (.prepareReclaim cx ino) :=
    fun _ _ h hm => h.moves hm
  have hok : (r ms).state.Ok (.prepareReclaim cx ino) := hwithin.invariant hkeep h ms
  have hnext : ∀ m, (r ms).state.Moves (.prepareReclaim cx ino) (r (ms ++ [m])).state := by
    intro m
    show Moves _ _ (Running.run envStep _ (ms ++ [m])).state
    rw [Running.run_append]
    exact ((hwithin.run ms).step m).1
  refine ⟨fun a y he => hok.inv.ok.inode_of_hasEntry he, fun m y n hn hgone => ⟨?_, fun ms' => ?_⟩,
    fun m y hne => (hok.moves_store (hnext m)).2 y hne, fun hret => ?_⟩
  · exact (hok.moves_store (hnext m)).1 y n hn hgone
  · have hg : (r (ms ++ [m])).state.Gone (.prepareReclaim cx ino) y :=
      ⟨hok.moves (hnext m), hok.spent_of_moves (hnext m) hn, hgone⟩
    have hg' : (r (ms ++ [m] ++ ms')).state.Gone (.prepareReclaim cx ino) y := by
      show Gone _ _ (Running.run envStep _ (ms ++ [m] ++ ms')).state
      rw [Running.run_append]
      exact (hwithin.run (ms ++ [m])).invariant (fun _ _ h hm => h.moves hm) hg ms'
    refine ⟨hg'.absent, fun a he => ?_⟩
    obtain ⟨m', hm'⟩ := hg'.ok.inv.ok.inode_of_hasEntry he
    exact absurd (hm'.symm.trans hg'.absent) (Option.some_ne_none m')
  · exact hwithin.exists_of_ret hkeep h (avoids_prepareReclaimCall maxAttempts retries) hret
      fun hc => hc rfl

namespace Deployment

/-- format の直後で、呼び出しはまだ接続を使っていない -/
def formatted : Deployment Unit := ⟨NamespaceSystem.formatted (Unit ⊕ Nat) 0 0 0, 0⟩

theorem ok_formatted (op : NamespaceOp) : formatted.Ok op :=
  ⟨NamespaceSystem.inv_formatted 0 0 0, fun _ _ _ h => nomatch h⟩

section

variable (i : Unit ⊕ Nat)

def reads (ks : List Key) : List (Move Reply (NamespaceEvent (Unit ⊕ Nat))) :=
  ks.flatMap fun k => [.env (.watch i k), .env (.get i)]

def transaction (op : NamespaceOp) (ks : List Key) :
    List (Move Reply (NamespaceEvent (Unit ⊕ Nat))) :=
  .env (.start i op) :: (reads i ks ++ [.env (.exec i)])

end

/-- 名前を失った inode 2 の回収の返事が失われ、その間に Link も inode を読み終える -/
def raceBegins : List (Move Reply (NamespaceEvent (Unit ⊕ Nat))) :=
  .env (.allocateInode (.inl ())) ::
    (transaction (.inl ()) (.createNode ⟨0, 0, 0⟩ 0 2 1 "a" 0o100644 0) [.inode 1, .directory 1] ++
      transaction (.inl ()) (.unlink ⟨0, 0, 0⟩ 0 1 "a" none) [.inode 1, .directory 1, .inode 2] ++
      .call ⟨0, fun _ => .delivered⟩ :: reads (.inr 0) [.inode 2, .inode 2, .chunkRefs 2] ++
      .env (.start (.inl ()) (.link 0 2 1 "b")) ::
        reads (.inl ()) [.inode 2, .inode 1, .directory 1] ++ [.call ⟨0, fun _ => .lost⟩])

/-- 回収の EXEC が遅れて効いた後、Link の EXEC は効かず、やり直した回収は inode の無いことを知る -/
def raceEnds : List (Move Reply (NamespaceEvent (Unit ⊕ Nat))) :=
  .env (.exec (.inl ())) :: List.replicate 2 (.call ⟨0, fun _ => .delivered⟩) ++
    reads (.inr 1) [.inode 2] ++ [.call ⟨0, fun _ => .delivered⟩]

end Deployment

open Deployment in
theorem reclaim_link_exclusion_raced :
    let run := Running.run envStep ⟨formatted, prepareReclaimCall ⟨4096, .cow, 0⟩ 2 3 3⟩
    let s := fun ms => (run ms).state.store
    formatted.Ok (.prepareReclaim ⟨4096, .cow, 0⟩ 2) ∧
    (∃ n, s raceBegins (.inode 2) = some n ∧ n.attr.nlink = 0) ∧
    (∀ ms a, ¬ HasEntry (s (raceBegins ++ [.env (.exec (.inr 0))] ++ ms)) a 2) ∧
    ∃ ms, ms <+: raceBegins ++ .env (.exec (.inr 0)) :: raceEnds ∧ Harmless 2 (s ms) := by
  intro run s
  have hlinks : (s raceBegins (.inode 2)).map (·.attr.nlink) = some 0 := by decide +kernel
  have hgone : s (raceBegins ++ [.env (.exec (.inr 0))]) (.inode 2) = none := by decide +kernel
  obtain ⟨n, hn, hl⟩ := Option.map_eq_some_iff.mp hlinks
  have hrace := (reclaim_link_exclusion (ok_formatted (.prepareReclaim ⟨4096, .cow, 0⟩ 2)) 3 3
    raceBegins).2.1 (.env (.exec (.inr 0))) 2 n hn hgone
  exact ⟨ok_formatted _, ⟨n, hn, hl⟩, fun ms => (hrace.2 ms).2,
    (reclaim_link_exclusion (ok_formatted _) 3 3 _).2.2.2 (by rfl)⟩

end SwordFS.Metadata
