import SwordFS.Infra.Occ
import SwordFS.Metadata.Properties.LockTxn

/-!
# 遅れた lock の EXEC

一つの owner の call は、同じ Hash については順に行われる。EXEC の応答が失われると次の試行が始まり、
前の EXEC はいつ実行されるか分からない。ある試行の成功が応答で確かめられたなら、
それより前の試行の EXEC はもう store を変えない。

成功した試行は必ず Hash を変更したと数えられる（`LockCall.commit_dirties`）ことによる。
-/

namespace SwordFS.Metadata.Lock

open Infra Function Txn

/-! ## 書き込みは Hash を変更したと数えられる -/

variable {s : LockStore} {ws : List LockCmd} {flock : Bool} {ino : InodeID}
  {generation kernelOwner : Nat} {remaining : Nat → Nat}

theorem setState_dirties {σ : Server Key Val}
    (h : (setState flock ino (.owner generation kernelOwner) data fieldExists).eval s [] =
      .ok (u, ws))
    (hex : fieldExists = true → ∃ d, field σ.store flock ino generation kernelOwner = some d) :
    σ.version (.lock flock ino) < (σ.execAll ws).version (.lock flock ino) ∧
      ∀ c ∈ ws, c.key = .lock flock ino := by
  unfold setState at h
  split at h
  · obtain rfl := eval_write_ok.mp h
    exact ⟨Server.version_exec_lt (c := LockCmd.hset ..) rfl, by simp [LockCmd.hset]⟩
  · split at h
    · next he =>
      obtain rfl := eval_write_ok.mp h
      obtain ⟨d, hd⟩ := hex he
      refine ⟨Server.version_exec_lt (c := LockCmd.hdel ..) ?_, by simp [LockCmd.hdel]⟩
      exact Option.isSome_iff_exists.mpr ⟨d, hd⟩
    · simp only [eval_bind_ok, eval_write_ok] at h
      obtain ⟨-, _, rfl, -, _, rfl, rfl⟩ := h
      refine ⟨?_, by simp [LockCmd.hset, LockCmd.hdel]⟩
      simp only [List.nil_append, List.cons_append, Server.execAll_cons]
      refine lt_of_lt_of_le
        (Server.version_exec_lt (c := LockCmd.hset flock ino .fence .fence) rfl) ?_
      exact (Server.le_execAll [LockCmd.hdel flock ino (.owner generation kernelOwner),
        LockCmd.hdel flock ino .fence] _).mono _

theorem field_of_own
    (h : (readHolders flock ino generation remaining).eval s ws = .ok (snapshot, ws'))
    (hown : (snapshot.holders.find? (·.isOwner generation kernelOwner)).isSome = true) :
    ∃ d, field s flock ino generation kernelOwner = some d := by
  obtain ⟨-, -, -, -, hmem⟩ := readHolders_ok h
  obtain ⟨holder, hf⟩ := Option.isSome_iff_exists.mp hown
  obtain ⟨gen, own, data, hfield, hdec⟩ := hmem holder (List.mem_of_find?_eq_some hf)
  obtain ⟨hg, hk, -⟩ := decode_ok hdec
  have hisown := List.find?_some hf
  simp only [Holder.isOwner, Bool.and_eq_true, beq_iff_eq] at hisown
  obtain rfl : gen = generation := hg.symm.trans hisown.1
  obtain rfl : own = kernelOwner := hk.symm.trans hisown.2
  exact ⟨data, hfield⟩

/-! ## 一つの owner の call -/

/-- owner の call -/
inductive LockCall where
  | setPosix (ino : InodeID) (range : PosixRange)
  | setFlock (ino : InodeID) (type : FlockType)

namespace LockCall

def hash : LockCall → Key
  | .setPosix ino _ => .lock false ino
  | .setFlock ino _ => .lock true ino

/-- 一回の試行の transaction。変換できずに古い flock を手放したとき真を返す -/
def txn (generation kernelOwner : Nat) : LockCall × (Nat → Nat) → LockTxn Bool
  | (.setPosix ino range, remaining) => do
    Lock.setPosix generation kernelOwner ino remaining range
    pure false
  | (.setFlock ino type, remaining) => Lock.setFlock generation kernelOwner ino remaining type

variable {call : LockCall}

/-- 成功した試行は Hash を変更したと数えられ、他の key に触れない -/
theorem commit_dirties {σ : Server Key Val} {x : Bool}
    (h : (txn generation kernelOwner (call, remaining)).eval σ.store [] = .ok (x, ws)) :
    σ.version call.hash < (σ.execAll ws).version call.hash ∧ ∀ c ∈ ws, c.key = call.hash := by
  cases call with
  | setPosix ino range =>
    simp only [txn, Lock.setPosix, eval_bind_ok, eval_ofExcept_ok, eval_failIf_ok,
      eval_pure_ok] at h
    obtain ⟨_, _, ⟨request, _, ⟨-, rfl⟩, snapshot, _, hread, -, _, ⟨-, rfl⟩, owned, _, ⟨-, rfl⟩, -, _,
      ⟨-, rfl⟩, h⟩, -, rfl⟩ := h
    obtain ⟨-, rfl, -⟩ := readHolders_ok hread
    exact setState_dirties h (field_of_own hread)
  | setFlock ino type =>
    simp only [txn, Lock.setFlock, eval_bind_ok] at h
    obtain ⟨snapshot, _, hread, h⟩ := h
    obtain ⟨-, rfl, -⟩ := readHolders_ok hread
    split at h
    · split at h
      · next hany =>
        simp only [eval_bind_ok, eval_pure_ok] at h
        obtain ⟨_, _, h, -, rfl⟩ := h
        refine setState_dirties h fun _ => field_of_own hread ?_
        obtain ⟨holder, hf, -⟩ := Option.any_eq_true .. |>.mp hany
        exact Option.isSome_iff_exists.mpr ⟨holder, hf⟩
      · cases h
    · simp only [eval_bind_ok, eval_failIf_ok, eval_pure_ok] at h
      obtain ⟨-, _, ⟨-, rfl⟩, _, _, h, -, rfl⟩ := h
      exact setState_dirties h (field_of_own hread)

theorem txn_start (call : LockCall) (remaining : Nat → Nat) :
    (∃ next, txn generation kernelOwner (call, remaining) [] = .read call.hash next) ∨
      ∃ e, txn generation kernelOwner (call, remaining) [] = .ret (.error e) := by
  cases call with
  | setPosix ino range =>
    cases hr : validateRange range with
    | error e =>
      refine .inr ⟨e, ?_⟩
      simp only [txn, Lock.setPosix, hr]
      rfl
    | ok request =>
      refine .inl ?_
      simp only [txn, Lock.setPosix, hr]
      exact ⟨_, rfl⟩
  | setFlock ino type => exact .inl ⟨_, rfl⟩

end LockCall

/-! ## owner の試行 -/

/-- 一つの owner の試行。番号は始めた順 -/
structure OwnerSystem where
  cluster : Cluster Nat (LockCall × (Nat → Nat)) Key Val Status Bool
  /-- 次の試行の番号 -/
  next : Nat
  /-- 試行の call -/
  call : Nat → Option LockCall
  /-- 実行された EXEC の結果 -/
  outcome : Nat → Option Bool
  /-- 成功の応答を受け取った試行 -/
  acked : List Nat

/-- owner と環境の動き。`other` は他の client や環境の任意の command -/
inductive OwnerEvent where
  | begin (call : LockCall) (remaining : Nat → Nat)
  | discard (n : Nat)
  | watch (n : Nat) (k : Key)
  | get (n : Nat)
  | exec (n : Nat)
  | ack (n : Nat)
  | other (cs : List LockCmd)

namespace OwnerSystem

def initial (σ : Server Key Val) : OwnerSystem where
  cluster := { server := σ, running := fun _ => none }
  next := 0
  call := fun _ => none
  outcome := fun _ => none
  acked := []

/-- 同じ Hash の前の試行がどれも読みを終えている。owner の mutex による -/
def mayBegin (S : OwnerSystem) (call : LockCall) : Bool :=
  (List.range S.next).all fun m =>
    (S.cluster.running m).all fun r => r.1.1.hash != call.hash || r.2.finished

variable (generation kernelOwner : Nat)

def send (S : OwnerSystem) (e : Event Nat (LockCall × (Nat → Nat)) Key Val) : OwnerSystem :=
  { S with cluster := S.cluster.step (LockCall.txn generation kernelOwner) e }

/-- 一つの動き。EXEC は読みを終えた後ならいつ実行されてもよく、応答は失われてもよい -/
def step (S : OwnerSystem) : OwnerEvent → OwnerSystem
  | .begin call remaining =>
    if S.mayBegin call then
      { S.send generation kernelOwner (.start S.next (call, remaining)) with
        next := S.next + 1
        call := update S.call S.next (some call) }
    else S
  | .discard n => S.send generation kernelOwner (.discard n)
  | .watch n k => S.send generation kernelOwner (.watch n k)
  | .get n => S.send generation kernelOwner (.get n)
  | .exec n =>
    { S.send generation kernelOwner (.exec n) with
      outcome := match S.cluster.exec? n with
        | some r => update S.outcome n (some r.1)
        | none => S.outcome }
  | .ack n => if S.outcome n = some false then { S with acked := n :: S.acked } else S
  | .other cs => S.send generation kernelOwner (.command cs)

def run (S : OwnerSystem) (es : List OwnerEvent) : OwnerSystem :=
  es.foldl (step generation kernelOwner) S

def store (S : OwnerSystem) : LockStore := S.cluster.server.store

/-! ## 不変条件 -/

/-- 試行の EXEC は、`key` が変更されたのでもう適用されない -/
def Fenced (σ : Server Key Val) (key : Key) (a : Attempt Key Val Status Bool) : Prop :=
  a.finished = true ∧
    ∀ r, a.rest = .ret (.ok r) → ∃ p ∈ a.watched, p.1 = key ∧ p.2 < σ.version key

/-- run のどの時点でも成り立つ条件 -/
structure Inv (S : OwnerSystem) : Prop where
  attempts : S.cluster.Ok (LockCall.txn generation kernelOwner)
  /-- 試行は、まだ読んでいないか、Hash を WATCH している -/
  started : ∀ n op a, S.cluster.running n = some (op, a) → n < S.next ∧ S.call n = some op.1 ∧
    (op.1.hash ∈ a.watched.map Prod.fst ∨ a.rest = LockCall.txn generation kernelOwner op [])
  /-- 後の試行が始まった Hash では、前の試行は読みを終えている -/
  ordered : ∀ m n c op a, m < n → S.call n = some c → S.cluster.running m = some (op, a) →
    op.1.hash = c.hash → a.finished = true
  calls : ∀ n c, S.call n = some c → n < S.next
  /-- 後の試行が成功した Hash では、前の試行の EXEC は適用されない -/
  fenced : ∀ m n c op a, m < n → S.outcome n ≠ none → S.call n = some c →
    S.cluster.running m = some (op, a) → op.1.hash = c.hash → Fenced S.cluster.server c.hash a
  executed : ∀ n, S.outcome n ≠ none → S.cluster.running n = none ∧ n < S.next
  acked : ∀ n ∈ S.acked, S.outcome n ≠ none

variable {generation kernelOwner} {S : OwnerSystem}

theorem Fenced.mono
    (h : Fenced σ key a) (hle : σ.Le σ') (ha : a.Advances a') : Fenced σ' key a' := by
  have hrest := ha.rest_eq h.1
  refine ⟨by rw [Attempt.finished, hrest]; exact h.1, fun r hr => ?_⟩
  obtain ⟨p, hp, hk, hlt⟩ := h.2 r (hrest ▸ hr)
  exact ⟨p, ha.watched p hp, hk, hlt.trans_le (hle.mono key)⟩

theorem inv_initial (σ : Server Key Val) : (initial σ).Inv generation kernelOwner where
  attempts := fun _ _ _ h => nomatch h
  started := fun _ _ _ h => nomatch h
  ordered := fun _ _ _ _ _ _ h => nomatch h
  calls := fun _ _ h => nomatch h
  fenced := fun _ _ _ _ _ _ h => absurd rfl h
  executed := fun _ h => absurd rfl h
  acked := fun _ h => absurd h List.not_mem_nil

section

variable (h : S.Inv generation kernelOwner)
include h

theorem Inv.advanced (hn : S.cluster.running n = some (op, a)) (ha : a.Advances a') :
    (op.1.hash ∈ a'.watched.map Prod.fst ∨
      a'.rest = LockCall.txn generation kernelOwner op []) ∧
    (∀ m c, n < m → S.call m = some c → op.1.hash = c.hash → a'.finished = true) ∧
    (∀ m c, n < m → S.outcome m ≠ none → S.call m = some c → op.1.hash = c.hash →
      Fenced (S.cluster.step (LockCall.txn generation kernelOwner) e).server c.hash a') := by
  obtain ⟨-, -, hw⟩ := h.started n op a hn
  refine ⟨?_, fun m c hm hc heq => ?_, fun m c hm ho hc heq => ?_⟩
  · rcases hw with hw | hw
    · obtain ⟨p, hp, hk⟩ := List.mem_map.mp hw
      exact .inl (List.mem_map.mpr ⟨p, ha.watched p hp, hk⟩)
    · rcases ha.rest with hr | ⟨k, next, v, hr, hk, -⟩
      · exact .inr (hr.trans hw)
      · -- 初めに読む key は Hash である
        rcases LockCall.txn_start op.1 op.2 with ⟨next', ht⟩ | ⟨err, ht⟩
        · rw [hw, ht] at hr
          cases hr
          obtain ⟨p, hp, hpk⟩ := List.mem_map.mp hk
          exact .inl (List.mem_map.mpr ⟨p, ha.watched p hp, hpk⟩)
        · rw [hw, ht] at hr
          cases hr
  · have hf := h.ordered n m c op a hm hc hn heq
    rw [Attempt.finished, ha.rest_eq hf]
    exact hf
  · exact (h.fenced n m c op a hm ho hc hn heq).mono (Cluster.server_le_step _ _ e) ha

theorem Inv.send (he : ∀ n op, e ≠ .start n op) :
    (S.send generation kernelOwner e).Inv generation kernelOwner := by
  have hback : ∀ n op a', (S.send generation kernelOwner e).cluster.running n = some (op, a') →
      ∃ a, S.cluster.running n = some (op, a) ∧ a.Advances a' := by
    intro n op a' hr
    rcases Cluster.running_step hr with ⟨hs, -⟩ | ha
    · exact absurd hs (he n op)
    · exact ha
  refine ⟨h.attempts.step e, fun n op a' hr => ?_, fun m n c op a' hmn hc hr heq => ?_, h.calls,
    fun m n c op a' hmn ho hc hr heq => ?_, fun n ho => ⟨?_, (h.executed n ho).2⟩, h.acked⟩
  · obtain ⟨a, hn, ha⟩ := hback n op a' hr
    exact ⟨(h.started n op a hn).1, (h.started n op a hn).2.1, (h.advanced (e := e) hn ha).1⟩
  · obtain ⟨a, hn, ha⟩ := hback m op a' hr
    exact (h.advanced (e := e) hn ha).2.1 n c hmn hc heq
  · obtain ⟨a, hn, ha⟩ := hback m op a' hr
    exact (h.advanced (e := e) hn ha).2.2 n c hmn ho hc heq
  · rw [Option.eq_none_iff_forall_ne_some]
    intro ⟨op, a'⟩ hr
    obtain ⟨a, hn, -⟩ := hback n op a' hr
    rw [(h.executed n ho).1] at hn
    cases hn

theorem mayBegin_iff {call : LockCall} (hm : S.mayBegin call = true)
    (hr : S.cluster.running m = some (op, a))
    (heq : op.1.hash = call.hash) : a.finished = true := by
  have hlt := (h.started m op a hr).1
  have hall := List.all_eq_true.mp hm m (List.mem_range.mpr hlt)
  simpa [hr, heq] using hall

theorem Inv.begin {call : LockCall} (hm : S.mayBegin call = true) :
    Inv generation kernelOwner
      { S.send generation kernelOwner (.start S.next (call, remaining)) with
        next := S.next + 1
        call := update S.call S.next (some call) } := by
  have hold : ∀ n, n < S.next → update S.call S.next (some call) n = S.call n :=
    fun n hn => update_of_ne hn.ne ..
  have hback : ∀ n op a', (S.send generation kernelOwner
      (.start S.next (call, remaining))).cluster.running n = some (op, a') →
      (n = S.next ∧ op = (call, remaining) ∧
        a' = Attempt.start (LockCall.txn generation kernelOwner op)) ∨
      n < S.next ∧ S.cluster.running n = some (op, a') := by
    intro n op a' hr
    by_cases hn : n = S.next
    · subst hn
      have hr' : some ((call, remaining), Attempt.start
          (LockCall.txn generation kernelOwner (call, remaining))) = some (op, a') := by
        simpa [OwnerSystem.send, Cluster.step, Cluster.setRunning] using hr
      cases hr'
      exact .inl ⟨rfl, rfl, rfl⟩
    · have hr' : S.cluster.running n = some (op, a') := by
        simpa [OwnerSystem.send, Cluster.step, Cluster.setRunning, hn] using hr
      exact .inr ⟨(h.started n op a' hr').1, hr'⟩
  have hcall : ∀ n c, update S.call S.next (some call) n = some c →
      (n = S.next ∧ c = call) ∨ n < S.next ∧ S.call n = some c := by
    intro n c hc
    by_cases hn : n = S.next
    · subst hn
      rw [update_self] at hc
      exact .inl ⟨rfl, (Option.some.inj hc).symm⟩
    · rw [update_of_ne hn] at hc
      exact .inr ⟨h.calls n c hc, hc⟩
  refine ⟨h.attempts.step (.start S.next (call, remaining)), fun n op a' hr => ?_,
    fun m n c op a' hmn hc hr heq => ?_, fun n c hc => ?_,
    fun m n c op a' hmn ho hc hr heq => ?_, fun n ho => ?_, h.acked⟩
  · rcases hback n op a' hr with ⟨rfl, rfl, rfl⟩ | ⟨hn, hr⟩
    · exact ⟨Nat.lt_succ_self _, update_self .., .inr rfl⟩
    · obtain ⟨-, hc, hw⟩ := h.started n op a' hr
      exact ⟨Nat.lt_succ_of_lt hn, (hold n hn).trans hc, hw⟩
  · rcases hcall n c hc with ⟨rfl, rfl⟩ | ⟨hn, hc⟩
    · rcases hback m op a' hr with ⟨rfl, -⟩ | ⟨-, hr⟩
      · exact absurd hmn (Nat.lt_irrefl _)
      · exact mayBegin_iff h hm hr heq
    · rcases hback m op a' hr with ⟨rfl, -⟩ | ⟨-, hr⟩
      · exact absurd (hmn.trans hn) (Nat.lt_irrefl _)
      · exact h.ordered m n c op a' hmn hc hr heq
  · rcases hcall n c hc with ⟨rfl, -⟩ | ⟨hn, -⟩
    · exact Nat.lt_succ_self _
    · exact Nat.lt_succ_of_lt hn
  · have hn := (h.executed n ho).2
    rcases hcall n c hc with ⟨rfl, -⟩ | ⟨-, hc⟩
    · exact absurd hn (Nat.lt_irrefl _)
    · rcases hback m op a' hr with ⟨rfl, -⟩ | ⟨-, hr⟩
      · exact absurd (hmn.trans hn) (Nat.lt_irrefl _)
      · exact h.fenced m n c op a' hmn ho hc hr heq
  · obtain ⟨hnone, hn⟩ := h.executed n ho
    refine ⟨?_, Nat.lt_succ_of_lt hn⟩
    rw [Option.eq_none_iff_forall_ne_some]
    rintro ⟨op, a'⟩ hr
    rcases hback n op a' hr with ⟨rfl, -⟩ | ⟨-, hr⟩
    · exact absurd hn (Nat.lt_irrefl _)
    · rw [hnone] at hr
      cases hr

/-- 成功した EXEC は Hash の版数を進め、同じ Hash の前の試行を無効にする -/
theorem Inv.exec (n : Nat) :
    (S.step generation kernelOwner (.exec n)).Inv generation kernelOwner := by
  have hsend := h.send (e := .exec n) fun _ _ => nofun
  cases he : S.cluster.exec? n with
  | none =>
    have heq : S.step generation kernelOwner (.exec n) =
        S.send generation kernelOwner (.exec n) := by simp [OwnerSystem.step, he, OwnerSystem.send]
    rw [heq]
    exact hsend
  | some r =>
    obtain ⟨x, ws⟩ := r
    obtain ⟨⟨call, remaining⟩, b, hb, heval⟩ := h.attempts.exec he
    obtain ⟨hlt, hcall, -⟩ := h.started n _ b hb
    obtain ⟨hver, -⟩ := LockCall.commit_dirties heval
    have hserver : (S.send generation kernelOwner (.exec n)).cluster.server =
        S.cluster.server.execAll ws := by
      simp [OwnerSystem.send, Cluster.step, he]
    have hrun : ∀ m op a, (S.send generation kernelOwner (.exec n)).cluster.running m =
        some (op, a) → m ≠ n ∧ S.cluster.running m = some (op, a) := by
      intro m op a hr
      by_cases hmn : m = n
      · subst hmn; simp [OwnerSystem.send, Cluster.step] at hr
      · exact ⟨hmn, by simpa [OwnerSystem.send, Cluster.step, hmn] using hr⟩
    have hout : ∀ m, update S.outcome n (some x) m ≠ none → m = n ∨ S.outcome m ≠ none := by
      intro m hm
      by_cases hmn : m = n
      · exact .inl hmn
      · exact .inr (by simpa [hmn] using hm)
    have heq : S.step generation kernelOwner (.exec n) =
        { S.send generation kernelOwner (.exec n) with
          outcome := update S.outcome n (some x) } := by
      simp [OwnerSystem.step, he]
    rw [heq]
    refine ⟨hsend.attempts, hsend.started, hsend.ordered, hsend.calls,
      fun m j c op a hmj ho hc hr hh => ?_, fun m ho => ?_, fun m hm => ?_⟩
    · rcases hout j ho with rfl | ho
      · obtain rfl : call = c := Option.some.inj (hcall.symm.trans hc)
        obtain ⟨-, hr'⟩ := hrun m op a hr
        have hfin := h.ordered m j call op a hmj hc hr' hh
        refine ⟨hfin, fun r hrest => ?_⟩
        -- 読みを終えて成功しうる試行は Hash を WATCH している
        have hw : op.1.hash ∈ a.watched.map Prod.fst := by
          refine (h.started m op a hr').2.2.resolve_right fun hu => ?_
          rcases LockCall.txn_start op.1 op.2 with ⟨next, ht⟩ | ⟨e, ht⟩
          · rw [hrest, ht] at hu
            cases hu
          · rw [hrest, ht] at hu
            cases hu
        obtain ⟨p, hp, hk⟩ := List.mem_map.mp hw
        have hpk : p.1 = call.hash := hk.trans hh
        refine ⟨p, hp, hpk, ?_⟩
        show p.2 < (S.send generation kernelOwner (.exec j)).cluster.server.version call.hash
        rw [hserver]
        exact lt_of_le_of_lt (hpk ▸ (h.attempts m op a hr').past p hp) hver
      · exact hsend.fenced m j c op a hmj ho hc hr hh
    · rcases hout m ho with rfl | ho
      · exact ⟨by simp [OwnerSystem.send, Cluster.step], hlt⟩
      · exact hsend.executed m ho
    · by_cases hmn : m = n
      · subst hmn; simp
      · simpa [hmn] using h.acked m hm

theorem Inv.step (e : OwnerEvent) :
    (S.step generation kernelOwner e).Inv generation kernelOwner := by
  cases e with
  | begin call remaining =>
    unfold OwnerSystem.step
    dsimp only
    split
    · next hm => exact h.begin hm
    · exact h
  | discard n => exact h.send fun _ _ => nofun
  | watch n k => exact h.send fun _ _ => nofun
  | get n => exact h.send fun _ _ => nofun
  | exec n => exact h.exec n
  | ack n =>
    unfold OwnerSystem.step
    dsimp only
    split
    · next ho =>
      refine { h with acked := List.forall_mem_cons.mpr ⟨?_, h.acked⟩ }
      rw [ho]
      exact nofun
    · exact h
  | other cs => exact h.send fun _ _ => nofun

theorem Inv.run (es : List OwnerEvent) :
    (S.run generation kernelOwner es).Inv generation kernelOwner := by
  induction es generalizing S with
  | nil => exact h
  | cons e es ih => exact ih (h.step e)

end

end OwnerSystem

/--
一つの owner の試行が成功の応答を得た後は、その owner のそれより前の試行の EXEC がいつ実行されても、
その call の Hash は変わらない。store の初めの状態と、他の client の command は任意である。
-/
theorem delayed_exec_fenced (generation kernelOwner : Nat) (σ : Server Key Val)
    (es : List OwnerEvent) :
    let S := (OwnerSystem.initial σ).run generation kernelOwner es
    ∀ n ∈ S.acked, ∀ call, S.call n = some call → ∀ m < n,
      (S.step generation kernelOwner (.exec m)).store call.hash = S.store call.hash := by
  intro S n hn call hcall m hmn
  have h : S.Inv generation kernelOwner := (OwnerSystem.inv_initial σ).run es
  cases he : S.cluster.exec? m with
  | none =>
    simp [OwnerSystem.store, OwnerSystem.step, OwnerSystem.send, Cluster.step, he]
  | some r =>
    obtain ⟨x, ws⟩ := r
    obtain ⟨⟨call', remaining⟩, a, ha, heval⟩ := h.attempts.exec he
    obtain ⟨-, hkeys⟩ := LockCall.commit_dirties heval
    by_cases hh : call'.hash = call.hash
    · -- 同じ Hash の試行は無効になっている
      obtain ⟨-, hf⟩ := h.fenced m n call _ a hmn (h.acked n hn) hcall ha hh
      rw [Cluster.exec?, ha, Option.bind_some] at he
      obtain ⟨hrest, hcur⟩ := Attempt.exec?_eq_some.mp he
      obtain ⟨p, hp, hk, hlt⟩ := hf _ hrest
      exact absurd (hk ▸ hcur p hp) hlt.ne'
    · have hstore : (S.step generation kernelOwner (.exec m)).store =
          Cmd.applyAll ws S.store := by
        simp [OwnerSystem.store, OwnerSystem.step, OwnerSystem.send, Cluster.step, he]
      rw [hstore]
      exact Cmd.applyAll_of_ne (fun c hc => fun heq => hh ((hkeys c hc).symm.trans heq.symm)) _

end SwordFS.Metadata.Lock
