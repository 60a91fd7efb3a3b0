import SwordFS.Utils.FiberRuntime

/-!
# drain は一度だけ起きる

`taskState` の下の bit は thread が持つ admission の総数に等しい。`drained_` への post は、済んだものと
これからのものを合わせて、`taskState` が零のときに限り一つある。
-/

namespace SwordFS.Utils

open List

namespace Pc

/-- 持っている admission の数 -/
def tokens : Pc → Nat
  | .prepare _ | .queued _ | .fiber => 1
  | .transferred _ => 2
  | .completing next => next.tokens + 1
  | .rejecting next | .posting next => next.tokens
  | _ => 0

/-- これから行う `drained_.post()` の数 -/
def posts : Pc → Nat
  | .posting next => next.posts + 1
  | .completing next | .rejecting next => next.posts
  | _ => 0

/-- これから走る、渡された関数か拒否の数 -/
def due : Pc → Nat
  | .rejecting next => next.due + 1
  | .completing next | .posting next => next.due
  | .beginShutdown | .done | .aborted => 0
  | _ => 1

/-- `CHECK` に落ちておらず、次の手でも落ちない -/
def Sound : Pc → Prop
  | .cas _ state => kAcceptingBit ≤ state
  | .transferred previous => previous % kAcceptingBit < kAcceptingBit - 1
  | .rejecting next | .completing next | .posting next => next.Sound
  | .aborted => False
  | _ => True

end Pc

/-- `taskState` と post の数の釣り合い。`pending` と `posts` は全ての thread の分 -/
structure Balanced (state drained pending posts : Nat) : Prop where
  packed : state = pending ∨ state = kAcceptingBit + pending
  room : pending < kAcceptingBit
  zero : state = 0 → drained + posts = 1
  busy : state ≠ 0 → drained + posts = 0

variable {state drained pending posts R Q : Nat} {ok : Bool} {pc : Pc}

theorem Balanced.mod (h : Balanced state drained pending posts) :
    state % kAcceptingBit = pending := by
  rcases h.packed with he | he
  · rw [he, Nat.mod_eq_of_lt h.room]
  · rw [he, Nat.add_mod_left, Nat.mod_eq_of_lt h.room]

/-- 一手のあと。`R` と `Q` はほかの thread の分 -/
structure Steps (state drained R Q : Nat) (pc : Pc) (e : Effect) : Prop where
  balanced : Balanced e.state (drained + e.drained)
    (e.pc.tokens + (e.spawned.map Pc.tokens).sum + R) (e.pc.posts + Q)
  sound : e.pc.Sound
  spawned : e.spawned = [] ∨ e.spawned = [.fiber]
  outcome : e.outcome + e.pc.due + (e.spawned.map Pc.due).sum = pc.due
  closed : state < kAcceptingBit → e.state < kAcceptingBit ∧ e.admitted = 0

section

variable (h : Balanced state drained (pc.tokens + R) (pc.posts + Q)) (hs : pc.Sound)
include h

/-- 数を変えずに位置だけが進む -/
theorem steps_goto (hn : p.Sound) (ht : p.tokens = pc.tokens) (hp : p.posts = pc.posts)
    (hd : n + p.due = pc.due) : Steps state drained R Q pc { state, pc := p, outcome := n } where
  balanced := by simpa [ht, hp] using h
  sound := hn
  spawned := .inl rfl
  outcome := hd
  closed hc := ⟨hc, rfl⟩

theorem tryAdmit_goto (hm : state % kAcceptingBit < kAcceptingBit - 1)
    (ht : 0 = pc.tokens) (hp : 0 = pc.posts) (hd : 1 = pc.due) :
    Steps state drained R Q pc { state, pc := tryAdmit submit state } := by
  unfold tryAdmit
  rw [if_pos hm]
  split
  next => exact steps_goto h (p := .rejecting .done) trivial ht hp hd
  next hge => exact steps_goto h (p := .cas submit state) (Nat.le_of_not_lt hge) ht hp hd

include hs

theorem Pc.step_steps (hroom : pc.tokens + R < kAcceptingBit - 1) :
    Steps state drained R Q pc (pc.step state ok) := by
  have hbit : kAcceptingBit = 2 ^ 63 := rfl
  have hmod := h.mod
  have hlt : state % kAcceptingBit < kAcceptingBit - 1 := hmod ▸ hroom
  obtain ⟨h1, h2, h3, h4⟩ := id h
  cases pc with
  | start submit =>
    cases ok with
    | false => exact steps_goto h trivial rfl rfl rfl
    | true => exact tryAdmit_goto h hlt rfl rfl rfl
  | cas submit expected =>
    simp only [Pc.step]
    split
    next he =>
      obtain ⟨-, rfl⟩ := he
      have hacc : kAcceptingBit ≤ state := hs
      simp only [Pc.tokens, Pc.posts] at h1 h2 h3 h4 hroom hmod
      refine ⟨⟨?_, ?_, ?_, ?_⟩, trivial, .inl rfl, rfl, fun hc => absurd hacc hc.not_ge⟩ <;>
        simp [Pc.tokens, Pc.posts] <;> omega
    next => exact tryAdmit_goto h hlt rfl rfl rfl
  | prepare submit => cases ok <;> exact steps_goto h trivial rfl rfl rfl
  | queued submit =>
    cases submit with
    | false => exact steps_goto h trivial rfl rfl rfl
    | true =>
      simp only [Pc.tokens, Pc.posts] at h1 h2 h3 h4 hroom hmod
      refine ⟨⟨?_, ?_, ?_, ?_⟩, hlt, .inl rfl, rfl, ?_⟩ <;>
        simp [Pc.step, Pc.tokens, Pc.posts] <;> omega
  | transferred previous =>
    have hp : previous % kAcceptingBit < kAcceptingBit - 1 := hs
    simp only [Pc.step, if_pos hp]
    cases ok with
    | false => exact steps_goto h trivial rfl rfl rfl
    | true => exact ⟨h, trivial, .inr rfl, rfl, fun hc => ⟨hc, rfl⟩⟩
  | fiber => exact steps_goto h trivial rfl rfl rfl
  | rejecting next => exact steps_goto h hs rfl rfl (Nat.add_comm _ _)
  | completing next =>
    simp only [Pc.tokens, Pc.posts] at h1 h2 h3 h4 hroom hmod
    have hpos : state % kAcceptingBit ≠ 0 := by omega
    simp only [Pc.step, if_neg hpos]
    split
    next =>
      refine ⟨⟨?_, ?_, ?_, ?_⟩, hs, .inl rfl, ?_, ?_⟩ <;>
        simp [Pc.tokens, Pc.posts, Pc.due] <;> omega
    next =>
      refine ⟨⟨?_, ?_, ?_, ?_⟩, hs, .inl rfl, ?_, ?_⟩ <;>
        simp [Pc.due] <;> omega
  | posting next =>
    have hsum : drained + 1 + (next.posts + Q) = drained + (next.posts + 1 + Q) := by omega
    exact ⟨⟨h1, h2, fun hz => hsum.trans (h3 hz), fun hz => hsum.trans (h4 hz)⟩, hs, .inl rfl,
      Nat.zero_add _, fun hc => ⟨hc, rfl⟩⟩
  | beginShutdown =>
    simp only [Pc.tokens, Pc.posts, Pc.step] at *
    split <;> refine ⟨⟨.inl ?_, ?_, ?_, ?_⟩, trivial, .inl rfl, rfl, ?_⟩ <;>
      simp [Pc.tokens, Pc.posts] <;> omega
  | done => exact steps_goto h trivial rfl rfl rfl
  | aborted => cases hs

end

/-! ## 実行の全体 -/

namespace FiberRuntime

def total (S : FiberRuntime) (f : Pc → Nat) : Nat := (S.threads.map f).sum

structure Inv (S : FiberRuntime) : Prop where
  balanced : Balanced S.taskState S.drained (S.total Pc.tokens) (S.total Pc.posts)
  sound : ∀ pc ∈ S.threads, pc.Sound
  outcome : S.outcomes + S.total Pc.due = S.calls

variable {S : FiberRuntime}

theorem Inv.spawn (h : S.Inv) (hs : p.Sound) (ht : p.tokens = 0) (hp : p.posts = 0) :
    Inv { S with threads := S.threads ++ [p], calls := S.calls + p.due } where
  balanced := by simpa [total, ht, hp] using h.balanced
  sound := by simpa [or_imp, forall_and] using ⟨h.sound, hs⟩
  outcome := by
    have := h.outcome
    simp only [total, map_append, sum_append, map_cons, map_nil, sum_cons,
      sum_nil] at *
    omega

theorem exists_split (h : ts[i]? = some pc) :
    ∃ l r, ts = l ++ pc :: r ∧ ∀ u, ts.set i u = l ++ u :: r := by
  obtain ⟨hi, rfl⟩ := List.getElem?_eq_some_iff.mp h
  refine ⟨ts.take i, ts.drop (i + 1), ?_, fun u => ?_⟩
  · rw [getElem_cons_drop, take_append_drop]
  · rw [set_eq_take_append_cons_drop, if_pos hi]

/-- 閉じたあとは閉じたままで、受け付けた数は増えない -/
def Closes (S S' : FiberRuntime) : Prop :=
  S.taskState < kAcceptingBit → S'.taskState < kAcceptingBit ∧ S'.admitted = S.admitted

theorem Inv.next (h : S.Inv) (hroom : S.total Pc.tokens < kAcceptingBit - 1) (ev : Event) :
    (S.next ev).Inv ∧ Closes S (S.next ev) := by
  cases ev with
  | call submit => exact ⟨h.spawn (p := .start submit) trivial rfl rfl, fun hc => ⟨hc, rfl⟩⟩
  | beginShutdown => exact ⟨h.spawn (p := .beginShutdown) trivial rfl rfl, fun hc => ⟨hc, rfl⟩⟩
  | step i ok =>
    simp only [FiberRuntime.next]
    cases ht : S.threads[i]? with
    | none => exact ⟨h, fun hc => ⟨hc, rfl⟩⟩
    | some pc =>
      obtain ⟨l, r, hts, hset⟩ := exists_split ht
      obtain ⟨hb, hs, ho⟩ := h
      have hsum (f : Pc → Nat) (u : Pc) (sp : List Pc) : ((l ++ u :: r ++ sp).map f).sum =
          f u + (sp.map f).sum + ((l.map f).sum + (r.map f).sum) := by
        simp only [map_append, map_cons, sum_append, sum_cons]
        omega
      have hold (f : Pc → Nat) := hsum f pc []
      rw [append_nil] at hold
      simp only [total, hts, hold, map_nil, sum_nil, Nat.add_zero] at hb ho hroom
      obtain ⟨hnew, hpc, hspawn, hout, hclosed⟩ : Steps _ _ _ _ pc (pc.step S.taskState ok) :=
        Pc.step_steps hb (hs pc (mem_of_getElem? ht)) hroom
      have hposts : ((pc.step S.taskState ok).spawned.map Pc.posts).sum = 0 := by
        rcases hspawn with he | he <;> rw [he] <;> rfl
      simp only [hset]
      refine ⟨⟨?_, ?_, ?_⟩, fun hc => ⟨(hclosed hc).1, by simp [(hclosed hc).2]⟩⟩
      · simpa only [total, hsum, hposts, Nat.add_zero] using hnew
      · intro q hq
        simp only [mem_append, mem_cons] at hq
        rcases hq with (hq | rfl | hq) | hq
        · exact hs q (hts ▸ mem_append_left _ hq)
        · exact hpc
        · exact hs q (hts ▸ mem_append_right _ (.tail _ hq))
        · rcases hspawn with he | he <;> simp [he] at hq
          exact hq ▸ trivial
      · simp only [total, hsum]
        omega

theorem Inv.run (h : S.Inv) (hroom : ∀ n ≤ evs.length,
      (S.run (evs.take n)).total Pc.tokens < kAcceptingBit - 1) :
    (S.run evs).Inv ∧ ∀ n ≤ evs.length, Closes (S.run (evs.take n)) (S.run evs) := by
  induction evs generalizing S with
  | nil =>
    refine ⟨h, fun n _ => ?_⟩
    rw [take_nil]
    exact fun hc => ⟨hc, rfl⟩
  | cons ev evs ih =>
    obtain ⟨hnext, hclose⟩ := h.next (hroom 0 (Nat.zero_le _)) ev
    obtain ⟨hinv, hrest⟩ := ih hnext fun n hn => hroom (n + 1) (Nat.succ_le_succ hn)
    refine ⟨hinv, fun n hn => ?_⟩
    cases n with
    | succ n => exact hrest n (Nat.le_of_succ_le_succ hn)
    | zero =>
      intro hc
      have hlater := hrest 0 (Nat.zero_le _) (hclose hc).1
      exact ⟨hlater.1, hlater.2.trans (hclose hc).2⟩

end FiberRuntime

open FiberRuntime (run Closes)

/--
どの実行でも、持たれている admission が `2 ^ 63 - 1` に届かない限り、drain は正しく一度だけ起きる。

`task_state_` の下の bit は持たれている admission の数に等しく、`CHECK` は落ちない。`drained_` への post は
高々一度で、閉じて全ての admission が返された後に限り、そうなって post を待つ thread が無ければ済んでいる。
閉じた後に受け付けられる呼び出しは無い。呼び出しの数は、走った関数と拒否と、これからのものの和である。
-/
theorem fiber_runtime_drains {evs : List Event} (hroom : ∀ n ≤ evs.length,
      (run {} (evs.take n)).total Pc.tokens < kAcceptingBit - 1) :
    let S := run {} evs
    S.taskState % kAcceptingBit = S.total Pc.tokens ∧ (∀ pc ∈ S.threads, pc ≠ .aborted) ∧
      S.drained ≤ 1 ∧
      (S.drained = 1 → S.taskState < kAcceptingBit ∧ S.total Pc.tokens = 0) ∧
      (S.taskState < kAcceptingBit → S.total Pc.tokens = 0 → S.total Pc.posts = 0 →
        S.drained = 1) ∧
      S.outcomes + S.total Pc.due = S.calls ∧
      ∀ n ≤ evs.length, Closes (run {} (evs.take n)) S := by
  intro S
  have hfresh : ({} : FiberRuntime).Inv :=
    ⟨⟨.inr rfl, by decide, fun h => absurd h (by decide), fun _ => rfl⟩, by simp, rfl⟩
  obtain ⟨⟨hb, hs, ho⟩, hclosed⟩ : S.Inv ∧ _ := hfresh.run hroom
  have hmod := hb.mod
  have hbit : kAcceptingBit = 2 ^ 63 := rfl
  obtain ⟨h1, h2, h3, h4⟩ := hb
  refine ⟨hmod, ?_, ?_, ?_, ?_, ho, hclosed⟩
  · rintro pc hpc rfl
    exact hs _ hpc
  all_goals omega

/-- 受け付けた `Submit` を残して閉じ、最後に fiber が post する -/
theorem fiber_runtime_drains_submit :
    (run {} [.call true, .step 0 true, .step 0 true, .beginShutdown, .step 1 true, .step 0 true,
      .step 0 true, .step 0 true, .step 2 true, .step 0 true, .step 2 true, .step 2 true]).drained
      = 1 :=
  (fiber_runtime_drains (by decide)).2.2.2.2.1 (by decide) rfl rfl

end SwordFS.Utils
