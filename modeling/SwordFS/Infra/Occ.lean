import Mathlib.Order.Nat
import SwordFS.Infra.Kv

/-!
# WATCH と EXEC による楽観的 transaction

版数を持つ server の上で、多数の client が transaction を一 command ずつ進める様子を表す。
key を変更したと数えられる command は、その key の版数を進める。
EXEC は、WATCH した key の版数がすべて WATCH の時のままなら溜めた書き込みを適用し、
そうでなければ何もしない。
-/

namespace SwordFS.Infra

open Function

variable {K : Type} {V : K → Type} {ε α ι Op : Type}

/-- key ごとの版数を持つ store -/
structure Server (K : Type) (V : K → Type) where
  store : Store K V
  version : K → Nat

namespace Server

/-- 版数は減らず、版数の同じ key は値も同じ -/
structure Le (σ σ' : Server K V) : Prop where
  mono : ∀ k, σ.version k ≤ σ'.version k
  same : ∀ k, σ'.version k = σ.version k → σ'.store k = σ.store k

namespace Le

variable {σ σ' σ'' : Server K V}

theorem refl (σ : Server K V) : σ.Le σ := ⟨fun _ => le_rfl, fun _ _ => rfl⟩

theorem trans (h : σ.Le σ') (h' : σ'.Le σ'') : σ.Le σ'' := by
  refine ⟨fun k => (h.mono k).trans (h'.mono k), fun k hk => ?_⟩
  have hmid : σ'.version k = σ.version k :=
    le_antisymm ((h'.mono k).trans_eq hk) (h.mono k)
  rw [h'.same k (hk.trans hmid.symm), h.same k hmid]

end Le

variable [DecidableEq K]

/-- command を一つ実行する -/
def exec (c : Cmd K V) (σ : Server K V) : Server K V where
  store := c.apply σ.store
  version :=
    if c.dirties (σ.store c.key) then
      update σ.version c.key (σ.version c.key + 1)
    else σ.version

/-- command の列を途切れずに実行する -/
def execAll (cs : List (Cmd K V)) (σ : Server K V) : Server K V :=
  cs.foldl (fun σ c => σ.exec c) σ

@[simp] theorem execAll_nil (σ : Server K V) : σ.execAll [] = σ := rfl

@[simp] theorem execAll_cons (c : Cmd K V) (cs : List (Cmd K V)) (σ : Server K V) :
    σ.execAll (c :: cs) = (σ.exec c).execAll cs := rfl

@[simp] theorem execAll_store (cs : List (Cmd K V)) (σ : Server K V) :
    (σ.execAll cs).store = Cmd.applyAll cs σ.store := by
  induction cs generalizing σ with
  | nil => rfl
  | cons c cs ih => exact ih (σ.exec c)

theorem le_exec (c : Cmd K V) (σ : Server K V) : σ.Le (σ.exec c) := by
  unfold exec
  split
  · refine ⟨fun k => ?_, fun k hk => ?_⟩
    · by_cases h : k = c.key
      · subst h; simp
      · simp [h]
    · by_cases h : k = c.key
      · subst h; simp at hk
      · exact c.apply_of_ne σ.store h
  · next hd =>
    refine ⟨fun _ => le_rfl, fun k _ => ?_⟩
    by_cases h : k = c.key
    · subst h
      exact (c.apply_key _).trans (c.clean _ (Bool.of_not_eq_true hd))
    · exact c.apply_of_ne σ.store h

theorem le_execAll (cs : List (Cmd K V)) (σ : Server K V) : σ.Le (σ.execAll cs) := by
  induction cs generalizing σ with
  | nil => exact .refl σ
  | cons c cs ih => exact (le_exec c σ).trans (ih _)

theorem version_exec_lt {σ : Server K V} (h : c.dirties (σ.store c.key) = true) :
    σ.version c.key < (σ.exec c).version c.key := by
  simp [exec, h]

end Server

/-- 途中まで進んだ試行。`watched` は WATCH した key とその時の版数、`rest` は残りの計算 -/
structure Attempt (K : Type) (V : K → Type) (ε α : Type) where
  watched : List (K × Nat)
  rest : ReadTree K V (Except ε (α × List (Cmd K V)))

namespace Attempt

/-- transaction を初めから試す -/
def start (t : Txn K V ε α) : Attempt K V ε α := ⟨[], t []⟩

/-- key を WATCH する -/
def watch (σ : Server K V) (k : K) (a : Attempt K V ε α) : Attempt K V ε α :=
  { a with watched := (k, σ.version k) :: a.watched }

/-- WATCH した key はどれも変更されていない -/
def Current (σ : Server K V) (a : Attempt K V ε α) : Prop :=
  ∀ p ∈ a.watched, σ.version p.1 = p.2

instance (σ : Server K V) (a : Attempt K V ε α) : Decidable (a.Current σ) :=
  inferInstanceAs (Decidable (∀ p ∈ a.watched, _))

/-- EXEC が適用する書き込み。読み終えていない試行と失敗した試行は EXEC に至らない -/
def exec? (σ : Server K V) (a : Attempt K V ε α) : Option (α × List (Cmd K V)) :=
  match a.rest with
  | .ret (.ok r) => if a.Current σ then some r else none
  | _ => none

/-- 読みを終え、EXEC を送れる -/
def finished (a : Attempt K V ε α) : Bool :=
  match a.rest with
  | .ret _ => true
  | .read .. => false

/-- 次の key を読む。WATCH していない key はまだ読めない -/
def get [DecidableEq K] (σ : Server K V) (a : Attempt K V ε α) : Attempt K V ε α :=
  match a.rest with
  | .ret _ => a
  | .read k next =>
    if k ∈ a.watched.map Prod.fst then { a with rest := next (σ.store k) } else a

theorem exec?_eq_some {a : Attempt K V ε α} :
    a.exec? σ = some r ↔ a.rest = .ret (.ok r) ∧ a.Current σ := by
  unfold exec?
  split
  · next r' h =>
    rw [h]
    split
    · next hc => simp [hc]
    · next hc => simp [hc]
  · next h => exact iff_of_false (fun hc => nomatch hc) fun hc => h r hc.1

/-- 一つの command で試行が進む。読めるのは WATCH した key だけ -/
structure Advances (a a' : Attempt K V ε α) : Prop where
  watched : ∀ p ∈ a.watched, p ∈ a'.watched
  rest : a'.rest = a.rest ∨ ∃ k next v, a.rest = .read k next ∧ k ∈ a.watched.map Prod.fst ∧
    a'.rest = next v

theorem Advances.refl (a : Attempt K V ε α) : a.Advances a := ⟨fun _ h => h, .inl rfl⟩

theorem advances_watch (σ : Server K V) (k : K) (a : Attempt K V ε α) :
    a.Advances (a.watch σ k) := ⟨fun _ h => List.mem_cons_of_mem _ h, .inl rfl⟩

theorem advances_get [DecidableEq K] (σ : Server K V) (a : Attempt K V ε α) :
    a.Advances (a.get σ) := by
  unfold get
  split
  · exact .refl a
  · next k next hrest =>
    split
    · next hk => exact ⟨fun _ h => h, .inr ⟨k, next, σ.store k, hrest, hk, rfl⟩⟩
    · exact .refl a

/-- 読みを終えた試行は、それ以上進まない -/
theorem Advances.rest_eq {a a' : Attempt K V ε α} (h : a.Advances a') (hf : a.finished = true) :
    a'.rest = a.rest := by
  rcases h.rest with h | ⟨k, next, v, hr, -⟩
  · exact h
  · simp [finished, hr] at hf

/-- 版数がすべて WATCH の時のままなら、残りの計算は初めから読み直したのと同じ -/
structure Ok (t : Txn K V ε α) (σ : Server K V) (a : Attempt K V ε α) : Prop where
  past : ∀ p ∈ a.watched, p.2 ≤ σ.version p.1
  same : a.Current σ → ∀ s : Store K V, (∀ p ∈ a.watched, s p.1 = σ.store p.1) →
    a.rest.eval s = (t []).eval s

variable {t : Txn K V ε α} {σ σ' : Server K V} {a : Attempt K V ε α}

theorem ok_start (t : Txn K V ε α) (σ : Server K V) : (start t).Ok t σ :=
  ⟨fun _ h => absurd h List.not_mem_nil, fun _ _ _ => rfl⟩

/-- 後の server で最新なら、前の server でも最新であった -/
theorem Current.of_le (hp : ∀ p ∈ a.watched, p.2 ≤ σ.version p.1) (h : σ.Le σ')
    (hc : a.Current σ') : a.Current σ := fun p hpa =>
  le_antisymm ((h.mono p.1).trans_eq (hc p hpa)) (hp p hpa)

namespace Ok

theorem watch (h : a.Ok t σ) (k : K) : (a.watch σ k).Ok t σ := by
  refine ⟨List.forall_mem_cons.mpr ⟨le_rfl, h.past⟩, fun hc s hs => ?_⟩
  exact h.same (List.forall_mem_cons.mp hc).2 s (List.forall_mem_cons.mp hs).2

theorem get [DecidableEq K] (h : a.Ok t σ) : (a.get σ).Ok t σ := by
  unfold Attempt.get
  split
  · exact h
  · next k next hrest =>
    split
    · next hk =>
      obtain ⟨p, hp, rfl⟩ := List.mem_map.mp hk
      refine ⟨h.past, fun hc s hs => ?_⟩
      have heq := h.same hc s hs
      rw [hrest, ReadTree.eval, hs p hp] at heq
      exact heq
    · exact h

/-- 他の client の書き込みは、試行の正しさを壊さない -/
theorem mono (h : a.Ok t σ) (hle : σ.Le σ') : a.Ok t σ' := by
  refine ⟨fun p hp => (h.past p hp).trans (hle.mono p.1), fun hc s hs => ?_⟩
  have hc' : a.Current σ := hc.of_le h.past hle
  refine h.same hc' s fun p hp => ?_
  rw [hs p hp, hle.same p.1 ((hc p hp).trans (hc' p hp).symm)]

/-- 成功した EXEC は、その時点で transaction を原子的に実行したのと同じ書き込みをする -/
theorem exec (h : a.Ok t σ) (he : a.exec? σ = some (x, ws)) : t.eval σ.store [] = .ok (x, ws) := by
  obtain ⟨hrest, hc⟩ := exec?_eq_some.mp he
  have heq := h.same hc σ.store fun _ _ => rfl
  rw [hrest] at heq
  exact heq.symm

end Ok

end Attempt

/-- server と、transaction を試行中の client -/
structure Cluster (ι Op K : Type) (V : K → Type) (ε α : Type) where
  server : Server K V
  running : ι → Option (Op × Attempt K V ε α)

/-- 一つの client または環境が出す command -/
inductive Event (ι Op K : Type) (V : K → Type) where
  /-- 操作を初めから試す。やり直しもこれ -/
  | start (i : ι) (op : Op)
  | discard (i : ι)
  | watch (i : ι) (k : K)
  | get (i : ι)
  | exec (i : ι)
  /-- transaction の外の command -/
  | command (cs : List (Cmd K V))

/-- command を出した client。環境の command には無い -/
def Event.client : Event ι Op K V → Option ι
  | .start i _ => some i
  | .discard i => some i
  | .watch i _ => some i
  | .get i => some i
  | .exec i => some i
  | .command _ => none

namespace Cluster

/-- client の EXEC が適用する書き込み -/
def exec? (c : Cluster ι Op K V ε α) (i : ι) : Option (α × List (Cmd K V)) :=
  (c.running i).bind fun r => r.2.exec? c.server

/-- 試行はどれも、自分の操作の transaction を正しく進めている -/
def Ok (txn : Op → Txn K V ε α) (c : Cluster ι Op K V ε α) : Prop :=
  ∀ i op a, c.running i = some (op, a) → a.Ok (txn op) c.server

variable {txn : Op → Txn K V ε α} {c : Cluster ι Op K V ε α} {i : ι}

/-- 成功した EXEC の書き込みは、操作を今の store で原子的に実行したもの -/
theorem Ok.exec (h : c.Ok txn) (he : c.exec? i = some (x, ws)) :
    ∃ op a, c.running i = some (op, a) ∧ (txn op).eval c.server.store [] = .ok (x, ws) := by
  obtain ⟨⟨op, a⟩, hi, ha⟩ := Option.bind_eq_some_iff.mp he
  exact ⟨op, a, hi, (h i op a hi).exec ha⟩

theorem Ok.of_le (h : c.Ok txn) (hle : c.server.Le σ)
    (hrun : ∀ j r, run j = some r → c.running j = some r) :
    Ok txn { server := σ, running := run } :=
  fun j op a hj => (h j op a (hrun j _ hj)).mono hle

variable [DecidableEq ι]

/-- client の試行を置き換える -/
def setRunning (c : Cluster ι Op K V ε α) (i : ι) (r : Option (Op × Attempt K V ε α)) :
    Cluster ι Op K V ε α := { c with running := update c.running i r }

/-- 試行を一つ進める -/
def advance (c : Cluster ι Op K V ε α) (i : ι) (f : Attempt K V ε α → Attempt K V ε α) :
    Cluster ι Op K V ε α := c.setRunning i ((c.running i).map fun r => (r.1, f r.2))

theorem Ok.setRunning (h : c.Ok txn)
    (hr : ∀ op a, r = some (op, a) → a.Ok (txn op) c.server) : (c.setRunning i r).Ok txn := by
  intro j op a hj
  by_cases hji : j = i
  · subst hji
    exact hr op a (by simpa [Cluster.setRunning] using hj)
  · exact h j op a (by simpa [Cluster.setRunning, hji] using hj)

theorem Ok.advance (h : c.Ok txn)
    (hf : ∀ op a, a.Ok (txn op) c.server → (f a).Ok (txn op) c.server) :
    (c.advance i f).Ok txn := by
  refine h.setRunning fun op a hr => ?_
  obtain ⟨⟨op', a'⟩, hi, heq⟩ := Option.map_eq_some_iff.mp hr
  cases heq
  exact hf op' a' (h i op' a' hi)

variable [DecidableEq K]

/-- 一つの command を実行する。EXEC の後、試行は成否によらず終わる -/
def step (txn : Op → Txn K V ε α) (c : Cluster ι Op K V ε α) :
    Event ι Op K V → Cluster ι Op K V ε α
  | .start i op => c.setRunning i (some (op, Attempt.start (txn op)))
  | .discard i => c.setRunning i none
  | .watch i k => c.advance i (Attempt.watch c.server k)
  | .get i => c.advance i (Attempt.get c.server)
  | .exec i =>
    { server := ((c.exec? i).map fun r => c.server.execAll r.2).getD c.server
      running := update c.running i none }
  | .command cs => { c with server := c.server.execAll cs }

theorem server_le_step (txn : Op → Txn K V ε α) (c : Cluster ι Op K V ε α)
    (e : Event ι Op K V) : c.server.Le (c.step txn e).server := by
  cases e with
  | exec i =>
    cases h : c.exec? i with
    | none => simp only [step, h]; exact .refl _
    | some r => simp only [step, h]; exact Server.le_execAll r.2 _
  | command cs => exact Server.le_execAll cs _
  | _ => exact .refl _

/-- 一つの command の後の試行は、始めたばかりか、前の試行が進んだもの -/
theorem running_step (h : (c.step txn e).running i = some (op, a')) :
    e = .start i op ∧ a' = Attempt.start (txn op) ∨
      ∃ a, c.running i = some (op, a) ∧ a.Advances a' := by
  have hset : ∀ {j r}, (c.setRunning j r).running i = some (op, a') →
      (i = j ∧ r = some (op, a')) ∨ c.running i = some (op, a') := by
    intro j r hr
    by_cases hij : i = j
    · subst hij
      exact .inl ⟨rfl, by simpa [setRunning] using hr⟩
    · exact .inr (by simpa [setRunning, hij] using hr)
  have hadv : ∀ {j} {f : Attempt K V ε α → Attempt K V ε α},
      (∀ a : Attempt K V ε α, a.Advances (f a)) → (c.advance j f).running i = some (op, a') →
      ∃ a, c.running i = some (op, a) ∧ a.Advances a' := by
    intro j f hf hr
    rcases hset hr with ⟨rfl, hr⟩ | hr
    · obtain ⟨⟨op', a⟩, hi, heq⟩ := Option.map_eq_some_iff.mp hr
      cases heq
      exact ⟨a, hi, hf a⟩
    · exact ⟨a', hr, .refl a'⟩
  cases e with
  | start j op' =>
    rcases hset h with ⟨rfl, hr⟩ | hr
    · cases hr
      exact .inl ⟨rfl, rfl⟩
    · exact .inr ⟨a', hr, .refl a'⟩
  | discard j =>
    rcases hset h with ⟨-, hr⟩ | hr
    · cases hr
    · exact .inr ⟨a', hr, .refl a'⟩
  | watch j k => exact .inr (hadv (Attempt.advances_watch c.server k) h)
  | get j => exact .inr (hadv (Attempt.advances_get c.server) h)
  | exec j =>
    refine .inr ⟨a', ?_, .refl a'⟩
    by_cases hij : i = j
    · subst hij; simp [step] at h
    · simpa [step, hij] using h
  | command cs => exact .inr ⟨a', h, .refl a'⟩

theorem Ok.step (h : c.Ok txn) (e : Event ι Op K V) : (c.step txn e).Ok txn := by
  cases e with
  | start i op =>
    refine h.setRunning fun _ _ hr => ?_
    cases hr
    exact Attempt.ok_start _ _
  | discard i => exact h.setRunning fun _ _ hr => (nomatch hr)
  | watch i k => exact h.advance fun _ _ ha => ha.watch k
  | get i => exact h.advance fun _ _ ha => ha.get
  | exec i =>
    refine h.of_le (server_le_step txn c (.exec i)) fun j r hj => ?_
    by_cases hji : j = i
    · subst hji; simp at hj
    · simpa [hji] using hj
  | command cs => exact h.of_le (server_le_step txn c (.command cs)) fun _ _ hj => hj

theorem running_step_of_ne (h : e.client ≠ some i) : (c.step txn e).running i = c.running i := by
  cases e with
  | command cs => rfl
  | _ =>
    refine update_of_ne (fun hij => h ?_) ..
    rw [hij]; rfl

/-- command の列を順に実行する -/
def run (txn : Op → Txn K V ε α) (c : Cluster ι Op K V ε α) (es : List (Event ι Op K V)) :
    Cluster ι Op K V ε α := es.foldl (fun c e => c.step txn e) c

theorem server_le_run (txn : Op → Txn K V ε α) (c : Cluster ι Op K V ε α)
    (es : List (Event ι Op K V)) : c.server.Le (c.run txn es).server := by
  induction es generalizing c with
  | nil => exact .refl _
  | cons e es ih => exact (server_le_step txn c e).trans (ih (c.step txn e))

theorem Ok.run (h : c.Ok txn) (es : List (Event ι Op K V)) : (c.run txn es).Ok txn := by
  induction es generalizing c with
  | nil => exact h
  | cons e es ih => exact ih (h.step e)

theorem running_run_of_ne (h : ∀ e ∈ es, e.client ≠ some i) :
    (c.run txn es).running i = c.running i := by
  induction es generalizing c with
  | nil => rfl
  | cons e es ih =>
    obtain ⟨he, hes⟩ := List.forall_mem_cons.mp h
    exact (ih hes).trans (running_step_of_ne he)

/-- 誰も試行していない cluster -/
def idle (σ : Server K V) : Cluster ι Op K V ε α := ⟨σ, fun _ => none⟩

omit [DecidableEq ι] [DecidableEq K] in
theorem ok_idle (txn : Op → Txn K V ε α) (σ : Server K V) :
    (idle σ : Cluster ι Op K V ε α).Ok txn := fun _ _ _ h => nomatch h

/--
送られたまま実行されていない EXEC は、WATCH した key が既に変更されていれば、
いつ実行されても何もしない。変更されていなければ、すぐ実行されたときに適用される。
-/
theorem Ok.delayed_exec_none_iff (h : c.Ok txn) {a : Attempt K V ε α}
    (hi : c.running i = some (op, a)) (hsent : a.rest = .ret (.ok r)) :
    (∀ es : List (Event ι Op K V), (∀ e ∈ es, e.client ≠ some i) →
      (c.run txn es).exec? i = none) ↔ ¬ a.Current c.server := by
  have hexec : ∀ es : List (Event ι Op K V), (∀ e ∈ es, e.client ≠ some i) →
      (c.run txn es).exec? i = a.exec? (c.run txn es).server := by
    intro es hes
    rw [exec?, running_run_of_ne hes, hi]
    rfl
  constructor
  · intro hnone hc
    have hnil : ∀ e ∈ ([] : List (Event ι Op K V)), e.client ≠ some i := fun _ he => nomatch he
    have hlate : a.exec? c.server = none := (hexec [] hnil).symm.trans (hnone [] hnil)
    rw [Attempt.exec?_eq_some.mpr ⟨hsent, hc⟩] at hlate
    cases hlate
  · intro hstale es hes
    rw [hexec es hes, Option.eq_none_iff_forall_ne_some]
    intro r' hr'
    exact hstale ((Attempt.exec?_eq_some.mp hr').2.of_le (h i op a hi).past
      (server_le_run txn c es))

end Cluster

end SwordFS.Infra
