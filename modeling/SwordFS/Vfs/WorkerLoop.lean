import SwordFS.Utils.Status

/-!
# 保守の worker の起床

`OrphanReclaimer` と `ChunkGcWorker` は、同じ `Wake`、`Stop`、`WorkerLoop` を持つ。`Start` の後の動きを
atomic と semaphore の一操作ずつに分ける。`Wake` はどの thread からも何度でも呼ばれる。
-/

namespace SwordFS.Vfs

inductive WorkerPc where
  | top
  /-- `stop_requested_` を読み、pass の前にいる -/
  | begin
  | running
  | check
  | wait
  /-- token を取り、`wake_pending_` を消す前にいる -/
  | clear
  | exited
deriving DecidableEq

structure WorkerLoop where
  stopRequested : Bool := false
  wakePending : Bool := false
  wakeSem : Nat := 0
  /-- exchange を終え、post の前にいる `Wake` の数 -/
  waking : Nat := 0
  pc : WorkerPc := .top
  /-- 始まった `RunWorkerPass` の数 -/
  passes : Nat := 0
  /-- 最後の pass が始まった後に `Wake` の exchange があった -/
  due : Bool := false

/-- `WorkerLoop` の一手。token が無ければ、`timeout` のときだけ待ちを終える -/
def WorkerLoop.work (timeout : Bool) (w : WorkerLoop) : WorkerLoop :=
  match w.pc with
  | .top => { w with pc := if w.stopRequested then .exited else .begin }
  | .begin => { w with pc := .running, passes := w.passes + 1, due := false }
  | .running => { w with pc := .check }
  | .check => { w with pc := if w.stopRequested then .exited else .wait }
  | .wait =>
    if 0 < w.wakeSem then { w with pc := .clear, wakeSem := w.wakeSem - 1 }
    else { w with pc := if timeout then .top else .wait }
  | .clear => { w with pc := .top, wakePending := false }
  | .exited => w

inductive WorkerEvent where
  | exchange
  | post
  | stop
  | stopPost
  | work (timeout : Bool)

def WorkerLoop.next (w : WorkerLoop) : WorkerEvent → WorkerLoop
  | .exchange =>
    { w with wakePending := true, due := true, waking := w.waking + (!w.wakePending).toNat }
  | .post =>
    if w.waking = 0 then w else { w with waking := w.waking - 1, wakeSem := w.wakeSem + 1 }
  | .stop => { w with stopRequested := true }
  | .stopPost => if w.stopRequested then { w with wakeSem := w.wakeSem + 1 } else w
  | .work timeout => w.work timeout

def WorkerLoop.run (w : WorkerLoop) (evs : List WorkerEvent) : WorkerLoop :=
  evs.foldl WorkerLoop.next w

/-! ## 起床は失われない -/

/-- `Start` の後の不変条件 -/
structure WorkerLoop.Inv (w : WorkerLoop) : Prop where
  /-- 立っている `wake_pending_` には、取れる token か、それを消そうとしている worker がある -/
  covered : w.wakePending = true → 0 < w.wakeSem + w.waking ∨ w.pc = .clear
  single : w.stopRequested = false →
    w.wakeSem + w.waking + (if w.pc = .clear then 1 else 0) = w.wakePending.toNat
  fresh : w.due = true →
    w.wakePending = true ∨ w.pc = .top ∨ w.pc = .begin ∨ w.stopRequested = true
  exits : w.pc = .exited → w.stopRequested = true

namespace WorkerLoop

variable {w : WorkerLoop}

theorem Inv.work (h : w.Inv) (timeout : Bool) : (w.work timeout).Inv := by
  obtain ⟨stop, pending, sem, waking, pc, passes, due⟩ := w
  obtain ⟨hcov, hone, hdue, hexit⟩ := h
  cases pc with
  | top | check => cases stop <;> constructor <;> simp_all [WorkerLoop.work]
  | begin | running => constructor <;> simp_all [WorkerLoop.work]
  | wait =>
    by_cases hsem : 0 < sem
    · simp only [WorkerLoop.work, if_pos hsem]
      refine ⟨fun _ => .inr rfl, fun hs => ?_, by simpa using hdue, by simp⟩
      have htokens : sem + waking + 0 = pending.toNat := hone hs
      simp only [if_true]
      omega
    · cases timeout <;> constructor <;> simp_all [WorkerLoop.work]
  | clear =>
    refine ⟨nofun, fun hs => ?_, fun _ => .inr (.inl rfl), nofun⟩
    have := hone hs
    cases pending <;> simp_all [WorkerLoop.work]
  | exited => exact ⟨hcov, hone, hdue, hexit⟩

theorem Inv.next (h : w.Inv) (ev : WorkerEvent) : (w.next ev).Inv := by
  obtain ⟨hcov, hone, hdue, hexit⟩ := h
  cases ev with
  | work timeout => exact Inv.work ⟨hcov, hone, hdue, hexit⟩ timeout
  | exchange =>
    cases hp : w.wakePending with
    | true => constructor <;> simp_all [WorkerLoop.next]
    | false =>
      have hpos : 0 < w.wakeSem + (w.waking + 1) := by omega
      constructor <;> simp_all [WorkerLoop.next]
  | post =>
    simp only [WorkerLoop.next]
    split
    next => exact ⟨hcov, hone, hdue, hexit⟩
    next =>
      have hsum : w.wakeSem + 1 + (w.waking - 1) = w.wakeSem + w.waking := by omega
      exact ⟨by simpa only [hsum] using hcov, by simpa only [hsum] using hone, hdue, hexit⟩
  | stop => exact ⟨hcov, nofun, fun _ => .inr (.inr (.inr rfl)), fun _ => rfl⟩
  | stopPost =>
    simp only [WorkerLoop.next]
    split
    next hs =>
      refine ⟨fun _ => .inl ?_, fun hf => Bool.noConfusion (hs.symm.trans hf), hdue, hexit⟩
      dsimp only
      omega
    next => exact ⟨hcov, hone, hdue, hexit⟩

theorem Inv.run (h : w.Inv) (evs : List WorkerEvent) : (w.run evs).Inv := by
  induction evs generalizing w with
  | nil => exact h
  | cons ev evs ih => exact ih (h.next ev)

/-- 届いた `Wake` の後に、timer に頼らず新しい pass が始まる -/
theorem Inv.passes (h : w.Inv) (hdue : w.due = true) (hs : w.stopRequested = false)
    (hw : w.waking = 0) : ∃ n ≤ 6, w.passes < ((WorkerLoop.work false)^[n] w).passes := by
  obtain ⟨stop, pending, sem, waking, pc, passes, due⟩ := w
  obtain ⟨hcov, -, hfresh, hexit⟩ := h
  cases hs
  cases hw
  have hsem (ht : pc ≠ .top) (hb : pc ≠ .begin) (hc : pc ≠ .clear) : 0 < sem := by
    simpa [ht, hb, hc] using hcov (by simpa [ht, hb] using hfresh hdue)
  cases pc with
  | top => exact ⟨2, by decide, Nat.lt_succ_self _⟩
  | begin => exact ⟨1, by decide, Nat.lt_succ_self _⟩
  | running => exact ⟨6, by decide, by simp [WorkerLoop.work, hsem]⟩
  | check => exact ⟨5, by decide, by simp [WorkerLoop.work, hsem]⟩
  | wait => exact ⟨4, by decide, by simp [WorkerLoop.work, hsem]⟩
  | clear => exact ⟨3, by decide, Nat.lt_succ_self _⟩
  | exited => cases hexit rfl

/-- 止められた worker は、読み終えた `stop_requested_` の分しか pass を始めない -/
theorem stopped_next (hs : w.stopRequested = true) (ev : WorkerEvent) :
    (w.next ev).stopRequested = true ∧
      (w.next ev).passes + (if (w.next ev).pc = .begin then 1 else 0)
        ≤ w.passes + (if w.pc = .begin then 1 else 0) := by
  cases ev with
  | work timeout =>
    obtain ⟨stop, pending, sem, waking, pc, passes, due⟩ := w
    cases hs
    cases pc with
    | wait =>
      by_cases hsem : 0 < sem <;> cases timeout <;>
        simp [WorkerLoop.next, WorkerLoop.work, hsem]
    | _ => simp [WorkerLoop.next, WorkerLoop.work]
  | post =>
    simp only [WorkerLoop.next]
    split <;> exact ⟨hs, Nat.le_refl _⟩
  | stopPost => simp [WorkerLoop.next, hs]
  | exchange => exact ⟨hs, Nat.le_refl _⟩
  | stop => exact ⟨rfl, Nat.le_refl _⟩

theorem stopped_run (hs : w.stopRequested = true) (evs : List WorkerEvent) :
    (w.run evs).passes ≤ w.passes + (if w.pc = .begin then 1 else 0) := by
  induction evs generalizing w with
  | nil => exact Nat.le_add_right _ _
  | cons ev evs ih =>
    obtain ⟨hs', hle⟩ := stopped_next hs ev
    exact Nat.le_trans (ih hs') hle

theorem stopped_exits (hs : w.stopRequested = true) (hsem : 0 < w.wakeSem) :
    ∃ n ≤ 3, ((WorkerLoop.work false)^[n] w).pc = .exited := by
  obtain ⟨stop, pending, sem, waking, pc, passes, due⟩ := w
  cases hs
  cases pc with
  | exited => exact ⟨0, by decide, rfl⟩
  | top | check => exact ⟨1, by decide, rfl⟩
  | running | clear => exact ⟨2, by decide, rfl⟩
  | begin => exact ⟨3, by decide, rfl⟩
  | wait => exact ⟨3, by decide, by simp [WorkerLoop.work, show 0 < sem from hsem]⟩

end WorkerLoop

/--
`Wake` は失われず、まとめられ、`Stop` はすぐに終わる。

どの実行でも、止められるまでは token は高々一つであり、届いた `Wake` の後には timer を待たずに
新しい pass が始まる。止められた後に始まる pass は高々一つで、`Stop` の post があれば worker は終わる。
-/
theorem worker_wakes (evs : List WorkerEvent) :
    let w := WorkerLoop.run {} evs
    (w.stopRequested = false → w.wakeSem + w.waking ≤ 1 ∧
      (w.due = true → w.waking = 0 → ∃ n ≤ 6, w.passes < ((WorkerLoop.work false)^[n] w).passes)) ∧
    (w.stopRequested = true → (∀ evs', (w.run evs').passes ≤ w.passes + 1) ∧
      (0 < w.wakeSem → ∃ n ≤ 3, ((WorkerLoop.work false)^[n] w).pc = .exited)) := by
  intro w
  have h : w.Inv := WorkerLoop.Inv.run (w := {}) ⟨by simp, fun _ => rfl, by simp, by simp⟩ evs
  refine ⟨fun hs => ⟨?_, fun hd => h.passes hd hs⟩,
    fun hs => ⟨fun evs' => ?_, WorkerLoop.stopped_exits hs⟩⟩
  · have hle := Bool.toNat_le w.wakePending
    have := h.single hs
    omega
  · have := WorkerLoop.stopped_run hs evs'
    split at this <;> omega

end SwordFS.Vfs
