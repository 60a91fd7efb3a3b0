import SwordFS.Chunk.Cow.BoundaryMachine
import SwordFS.Chunk.Properties.BoundaryReplay
import SwordFS.Chunk.Properties.CowFlush

/-!
# 割り込みの下の `SanitizeCOWBoundary`

他の mount がどう割り込んでも、OK が返れば境界はどこかの時点で清算されている。
-/

namespace SwordFS.Chunk.Cow

open Infra Metadata Function Prog

variable {ino : InodeID} {boundary : RetainedChunkBoundary}

/-- 境界の先に byte が残っていない：head が可視の長さに収まるか、取り付けられていない -/
def BoundaryClear (ino : InodeID) (boundary : RetainedChunkBoundary) (b : Backend) : Prop :=
  (∃ h, b.cowHead boundary.chunkId = some h ∧ h.size ≤ boundary.visiblePrefix) ∨
    attachedAt b.redis ino boundary.index ≠ some boundary.chunkId

/-- head は変わらないか、revision を保ったまま縮む -/
def HeadShrinks (w : Option COWChunkHead × Option COWChunkHead) : Prop :=
  w.2 = w.1 ∨ ∃ a z, w = (some a, some z) ∧ z.revision = a.revision ∧ z.size ≤ a.size

/-! ## 呼び出し一つの結果 -/

variable {b : Backend}

theorem readHead_ok {id : ChunkID} (hr : readHead id b = .ok h) :
    b.cowHead id = some h ∧ isValidHead h = true := by
  unfold readHead at hr
  simp only [Result.bind_ok_iff] at hr
  obtain ⟨-, -, hr⟩ := hr
  split at hr
  next => cases hr
  next h' hhead =>
    split at hr
    next => cases hr
    next hv =>
      cases hr
      exact ⟨hhead, by simpa using hv⟩

theorem probe_ok
    (h : ((probeAttachment ino i).commit s).1 = .ok attached) : attached = attachedAt s ino i := by
  have hc : (probeAttachment ino i).commit s = (.ok attached, _) := Prod.ext h rfl
  obtain ⟨ws, he, -⟩ := Txn.commit_ok_iff.mp hc
  exact (probeAttachment_ok.mp he).2.1

variable {current : COWChunkHead}

theorem exchangeHead_shrunk (hv : isValidHead current = true)
    (hp : boundary.visiblePrefix < current.size) :
    exchangeHead (some current) (some current) (shrunk boundary current)
      = .ok (shrunk boundary current) := by
  refine exchangeHead_ok_iff.mpr ⟨rfl, rfl, hv, ?_⟩
  rintro e ⟨⟩
  exact ⟨hv, .inr ⟨rfl, hp.le⟩⟩

/-! ## 一手 -/

/-- 一手でできること -/
inductive CommandMoves (ino : InodeID) (boundary : RetainedChunkBoundary) (S : SanitizeSystem) :
    SanitizeSystem → Prop where
  | idle (hpc : S.pc.running = false) : CommandMoves ino boundary S S
  | failed (e : Status) (hpc : S.pc.running = true) :
      CommandMoves ino boundary S { S with pc := .done (.error e) }
  | clear (hpc : S.pc.running = true) (hclear : BoundaryClear ino boundary S.backend) :
      CommandMoves ino boundary S { S with pc := .done (.ok ()) }
  | absent (hpc : S.pc = .getHead) : CommandMoves ino boundary S { S with pc := .probe }
  | exceeds (current : COWChunkHead) (hpc : S.pc = .getHead)
      (hhead : S.backend.cowHead boundary.chunkId = some current)
      (hvalid : isValidHead current = true) (hsize : boundary.visiblePrefix < current.size) :
      CommandMoves ino boundary S { S with pc := .exchange current }
  | conflict (current : COWChunkHead) (hpc : S.pc = .exchange current)
      (hhead : isValidHead current = true → boundary.visiblePrefix < current.size →
        S.backend.cowHead boundary.chunkId ≠ some current) :
      CommandMoves ino boundary S { S with pc := .getHead }
  | lost (current : COWChunkHead) (hpc : S.pc = .exchange current)
      (hhead : S.backend.cowHead boundary.chunkId = some current) :
      CommandMoves ino boundary S { S with pending := current :: S.pending, pc := .getHead }
  | exchanged (current : COWChunkHead) (hpc : S.pc = .exchange current)
      (hhead : S.backend.cowHead boundary.chunkId = some current) :
      CommandMoves ino boundary S
        { S.writeHead boundary (some (shrunk boundary current)) with pc := .done (.ok ()) }

variable {pending : List COWChunkHead}

theorem command_getHead (reply : Reply) :
    CommandMoves ino boundary ⟨b, pending, .getHead⟩
      (SanitizeSystem.command ino boundary ⟨b, pending, .getHead⟩ reply) := by
  unfold SanitizeSystem.command
  dsimp only
  split
  next e _ => exact .failed e rfl
  next =>
    unfold afterGetHead
    split
    next e _ =>
      split
      next => exact .absent rfl
      next => exact .failed e rfl
    next current hread =>
      obtain ⟨hhead, hvalid⟩ := readHead_ok hread
      split
      next hle => exact .clear rfl (.inl ⟨current, hhead, hle⟩)
      next hgt => exact .exceeds current rfl hhead hvalid (Nat.lt_of_not_le hgt)

theorem command_probe (reply : Reply) :
    CommandMoves ino boundary ⟨b, pending, .probe⟩
      (SanitizeSystem.command ino boundary ⟨b, pending, .probe⟩ reply) := by
  unfold SanitizeSystem.command
  dsimp only
  split
  next e _ => exact .failed e rfl
  next =>
    unfold afterProbe
    split
    next e _ => exact .failed e rfl
    next attached hprobe =>
      unfold Result.failIf
      split
      next => exact .failed _ rfl
      next hne =>
        refine .clear rfl (.inr ?_)
        rw [← probe_ok hprobe]
        exact hne

theorem command_exchange (reply : Reply) :
    CommandMoves ino boundary ⟨b, pending, .exchange current⟩
      (SanitizeSystem.command ino boundary ⟨b, pending, .exchange current⟩ reply) := by
  unfold SanitizeSystem.command
  dsimp only
  split
  next e _ => exact .failed e rfl
  next =>
    split
    next e hex =>
      unfold afterExchange
      split
      next =>
        refine .conflict current rfl ?_
        intro hvalid hsize hhead
        rw [show b.cowHead boundary.chunkId = some current from hhead,
          exchangeHead_shrunk hvalid hsize] at hex
        cases hex
      next => exact .failed e rfl
    next h hex =>
      obtain ⟨rfl, hhead, -⟩ := exchangeHead_ok_iff.mp hex
      split
      next => exact .lost current rfl hhead
      next => exact .exchanged current rfl hhead

theorem command_moves (S : SanitizeSystem) (reply : Reply) :
    CommandMoves ino boundary S (S.command ino boundary reply) := by
  obtain ⟨b, pending, pc⟩ := S
  cases pc with
  | getHead => exact command_getHead reply
  | probe => exact command_probe reply
  | exchange current => exact command_exchange reply
  | done r => exact .idle rfl

/-! ## 実行 -/

/-- 手の数を、割り込みと返事の失敗の数 `budget` で抑える -/
def SanitizeCost (boundary : RetainedChunkBoundary) (S : SanitizeSystem)
    (commands budget : Nat) : Prop :=
  match S.pc with
  | .getHead => commands ≤ 2 * budget
  | .probe => commands ≤ 2 * budget + 1
  | .exchange current =>
    isValidHead current = true ∧ boundary.visiblePrefix < current.size ∧
      commands ≤ 2 * budget + 1 ∧
      -- 読んだ head が変わったなら、その分がまだ費やされていない
      (S.backend.cowHead boundary.chunkId = some current ∨ commands + 1 ≤ 2 * budget)
  | .done _ => commands ≤ 2 * budget + 2

structure SanitizeInv (ino : InodeID) (boundary : RetainedChunkBoundary) (S : SanitizeSystem)
    (g : SanitizeLog) : Prop where
  /-- WATCH の破れていない CAS は、今の head を縮めるもの -/
  pending : ∀ e ∈ S.pending,
    S.backend.cowHead boundary.chunkId = some e ∧ boundary.visiblePrefix < e.size
  /-- 後から効くのは、返事を失った CAS だけ -/
  lates : g.lates + S.pending.length ≤ g.losts
  cost : SanitizeCost boundary S g.commands (g.changes + g.losts + g.lates)
  cleared : S.pc = .done (.ok ()) → ∃ b ∈ g.instants, BoundaryClear ino boundary b
  shrinks : ∀ w ∈ g.exchanges, HeadShrinks w

variable {S : SanitizeSystem} {commands budget fuel : Nat}

section

variable (h : SanitizeCost boundary S commands budget)
include h

/-- head が書かれるたびに予算が一つ増えるので、読んだ head が古くなっても手の数は抑えられる -/
theorem SanitizeCost.write (head : Option COWChunkHead) :
    SanitizeCost boundary (S.writeHead boundary head) commands (budget + 1) := by
  obtain ⟨b, pending, pc⟩ := S
  cases pc with
  | getHead =>
    have h : commands ≤ 2 * budget := h
    show commands ≤ 2 * (budget + 1)
    omega
  | probe =>
    have h : commands ≤ 2 * budget + 1 := h
    show commands ≤ 2 * (budget + 1) + 1
    omega
  | done r =>
    have h : commands ≤ 2 * budget + 2 := h
    show commands ≤ 2 * (budget + 1) + 2
    omega
  | exchange current =>
    obtain ⟨hvalid, hsize, hle, -⟩ := h
    exact ⟨hvalid, hsize, by omega, .inr (by omega)⟩

/-- 進行中の呼び出しは、もう一手進んで終わっても上限に収まる -/
theorem SanitizeCost.finish (hpc : S.pc.running = true) : commands + 1 ≤ 2 * budget + 2 := by
  obtain ⟨b, pending, pc⟩ := S
  cases pc with
  | getHead => exact Nat.le_succ_of_le (Nat.succ_le_succ h)
  | probe => exact Nat.succ_le_succ h
  | exchange current => exact Nat.succ_le_succ h.2.2.1
  | done r => cases hpc

theorem SanitizeCost.stopped (hpc : S.pc.running = false) : commands ≤ 2 * budget + 2 := by
  obtain ⟨b, pending, pc⟩ := S
  cases pc with
  | done r => exact h
  | getHead | probe | exchange current => cases hpc

end

/-- 終わった呼び出しの時点は増えない。終わっていなければ前後の時点が増える -/
theorem instants_mono
    (h : b ∈ g.instants) : b ∈ (sanitizeWatch boundary g S (ev, S')).instants := by
  have hmono : b ∈ if S.pc.running then S'.backend :: S.backend :: g.instants else g.instants := by
    split
    next => exact List.mem_cons_of_mem _ (List.mem_cons_of_mem _ h)
    next => exact h
  cases ev <;> exact hmono

theorem instants_running (h : S.pc.running = true) :
    (sanitizeWatch boundary g S (ev, S')).instants = S'.backend :: S.backend :: g.instants := by
  cases ev <;> exact if_pos h

namespace SanitizeInv

variable {S : SanitizeSystem} {g : SanitizeLog}

theorem pending_write (head : Option COWChunkHead) :
    ∀ e ∈ (S.writeHead boundary head).pending,
      (S.writeHead boundary head).backend.cowHead boundary.chunkId = some e ∧
        boundary.visiblePrefix < e.size :=
  fun _ he => nomatch he

theorem head (h : SanitizeInv ino boundary S g) (x : Option COWChunkHead) :
    SanitizeInv ino boundary (S.writeHead boundary x)
      (sanitizeWatch boundary g S (.head x, S.writeHead boundary x)) where
  pending := pending_write x
  lates := Nat.le_trans (Nat.le_add_right _ _) h.lates
  cost := by
    have hcost := h.cost.write x
    rw [show g.changes + g.losts + g.lates + 1 = g.changes + 1 + g.losts + g.lates by omega]
      at hcost
    exact hcost
  cleared hpc := by
    obtain ⟨b, hb, hclear⟩ := h.cleared hpc
    exact ⟨b, instants_mono hb, hclear⟩
  shrinks := h.shrinks

theorem file (h : SanitizeInv ino boundary S g) (redis : Redis) :
    SanitizeInv ino boundary { S with backend := { S.backend with redis := redis } }
      (sanitizeWatch boundary g S
        (.file redis, { S with backend := { S.backend with redis := redis } })) where
  pending := h.pending
  lates := h.lates
  cost := h.cost
  cleared hpc := by
    obtain ⟨b, hb, hclear⟩ := h.cleared hpc
    exact ⟨b, instants_mono hb, hclear⟩
  shrinks := h.shrinks

variable {current : COWChunkHead}

/-- 返事を失った CAS が効く。head は読んだ値のままなので、revision を保って縮む -/
theorem late (h : SanitizeInv ino boundary S g) (hp : S.pending = current :: rest) :
    SanitizeInv ino boundary (S.writeHead boundary (some (shrunk boundary current)))
      (sanitizeWatch boundary g S
        (.late, S.writeHead boundary (some (shrunk boundary current)))) where
  pending := pending_write _
  lates := by
    have hlates := h.lates
    rw [hp, List.length_cons] at hlates
    show g.lates + 1 + 0 ≤ g.losts
    omega
  cost := h.cost.write _
  cleared hpc := by
    obtain ⟨b, hb, hclear⟩ := h.cleared hpc
    exact ⟨b, instants_mono hb, hclear⟩
  shrinks := by
    obtain ⟨hhead, hsize⟩ := h.pending current (hp ▸ List.mem_cons_self)
    refine List.forall_mem_cons.mpr ⟨.inr ⟨current, shrunk boundary current, ?_, rfl, hsize.le⟩,
      h.shrinks⟩
    rw [hhead]
    exact congrArg _ (update_self ..)

variable {S' : SanitizeSystem}

theorem cleared_of (hpc : S.pc.running = true)
    (hb : b = S.backend ∨ b = S'.backend) (hclear : BoundaryClear ino boundary b) :
    ∃ b ∈ (sanitizeWatch boundary g S (ev, S')).instants, BoundaryClear ino boundary b := by
  refine ⟨b, ?_, hclear⟩
  rw [instants_running hpc]
  rcases hb with rfl | rfl
  · exact List.mem_cons_of_mem _ List.mem_cons_self
  · exact List.mem_cons_self

theorem commands_running (hpc : S.pc.running = true) :
    (sanitizeWatch boundary g S (.command reply, S')).commands = g.commands + 1 := if_pos hpc

theorem losts_same (h : S'.pending.length ≤ S.pending.length) :
    (sanitizeWatch boundary g S (.command reply, S')).losts = g.losts := if_neg (Nat.not_lt.mpr h)

section

variable (h : SanitizeInv ino boundary S g) (reply : Reply)
include h

theorem answered (hpc : S.pc.running = true) (hlen : S'.pending.length ≤ S.pending.length)
    (hpending : ∀ e ∈ S'.pending,
      S'.backend.cowHead boundary.chunkId = some e ∧ boundary.visiblePrefix < e.size)
    (hcost : SanitizeCost boundary S' (g.commands + 1) (g.changes + g.losts + g.lates))
    (hclear : S'.pc = .done (.ok ()) → BoundaryClear ino boundary S'.backend)
    (hshrinks : HeadShrinks
      (S.backend.cowHead boundary.chunkId, S'.backend.cowHead boundary.chunkId)) :
    SanitizeInv ino boundary S' (sanitizeWatch boundary g S (.command reply, S')) where
  pending := hpending
  lates := by
    rw [losts_same hlen]
    exact Nat.le_trans (Nat.add_le_add_left hlen _) h.lates
  cost := by
    rw [losts_same hlen, commands_running hpc]
    exact hcost
  cleared hdone := cleared_of hpc (.inr rfl) (hclear hdone)
  shrinks := List.forall_mem_cons.mpr ⟨hshrinks, h.shrinks⟩

theorem lost (hpc : S.pc = .exchange current)
    (hhead : S.backend.cowHead boundary.chunkId = some current) :
    SanitizeInv ino boundary { S with pending := current :: S.pending, pc := .getHead }
      (sanitizeWatch boundary g S
        (.command reply, { S with pending := current :: S.pending, pc := .getHead })) := by
  have hrun : S.pc.running = true := by rw [hpc]; rfl
  have hlosts : (sanitizeWatch boundary g S (.command reply,
      { S with pending := current :: S.pending, pc := .getHead })).losts = g.losts + 1 :=
    if_pos (Nat.lt_succ_self _)
  have hcost := h.cost
  unfold SanitizeCost at hcost
  rw [hpc] at hcost
  obtain ⟨-, hsize, hle, -⟩ := hcost
  refine ⟨List.forall_mem_cons.mpr ⟨⟨hhead, hsize⟩, h.pending⟩, ?_, ?_, nofun,
    List.forall_mem_cons.mpr ⟨.inl rfl, h.shrinks⟩⟩
  · rw [hlosts]
    exact Nat.succ_le_succ h.lates
  · rw [hlosts, commands_running hrun]
    show g.commands + 1 ≤ 2 * (g.changes + (g.losts + 1) + g.lates)
    omega

theorem exchanged
    (hpc : S.pc = .exchange current) (hhead : S.backend.cowHead boundary.chunkId = some current) :
    SanitizeInv ino boundary
      { S.writeHead boundary (some (shrunk boundary current)) with pc := .done (.ok ()) }
      (sanitizeWatch boundary g S (.command reply,
        { S.writeHead boundary (some (shrunk boundary current)) with pc := .done (.ok ()) })) := by
  have hrun : S.pc.running = true := by rw [hpc]; rfl
  have hcost := h.cost
  unfold SanitizeCost at hcost
  rw [hpc] at hcost
  have hnew : (S.writeHead boundary (some (shrunk boundary current))).backend.cowHead
      boundary.chunkId = some (shrunk boundary current) := update_self ..
  refine h.answered reply hrun (Nat.zero_le _) (pending_write _) (h.cost.finish hrun)
    (fun _ => .inl ⟨_, hnew, Nat.le_refl _⟩)
    (.inr ⟨current, shrunk boundary current, Prod.ext hhead hnew, rfl, hcost.2.1.le⟩)

theorem quiet (hpc : S.pc.running = true)
    (hcost : SanitizeCost boundary ⟨S.backend, S.pending, pc⟩ (g.commands + 1)
      (g.changes + g.losts + g.lates))
    (hclear : pc = .done (.ok ()) → BoundaryClear ino boundary S.backend) :
    SanitizeInv ino boundary { S with pc := pc }
      (sanitizeWatch boundary g S (.command reply, { S with pc := pc })) :=
  h.answered reply hpc (Nat.le_refl _) h.pending hcost hclear (.inl rfl)

theorem idle (hpc : S.pc.running = false) :
    SanitizeInv ino boundary S (sanitizeWatch boundary g S (.command reply, S)) := by
  have hcommands : (sanitizeWatch boundary g S (.command reply, S)).commands = g.commands :=
    if_neg (by simp [hpc])
  refine ⟨h.pending, ?_, ?_, ?_, List.forall_mem_cons.mpr ⟨.inl rfl, h.shrinks⟩⟩
  · rw [losts_same (Nat.le_refl _)]
    exact h.lates
  · rw [losts_same (Nat.le_refl _), hcommands]
    exact h.cost
  · intro hdone
    obtain ⟨b, hb, hclear⟩ := h.cleared hdone
    exact ⟨b, instants_mono hb, hclear⟩

theorem command :
    SanitizeInv ino boundary (S.command ino boundary reply)
      (sanitizeWatch boundary g S (.command reply, S.command ino boundary reply)) := by
  have hcost := h.cost
  have hm : CommandMoves ino boundary S (S.command ino boundary reply) := command_moves S reply
  generalize S.command ino boundary reply = S' at hm ⊢
  cases hm with
  | idle hpc => exact h.idle reply hpc
  | failed e hpc => exact h.quiet reply hpc (hcost.finish hpc) nofun
  | clear hpc hclear => exact h.quiet reply hpc (hcost.finish hpc) fun _ => hclear
  | absent hpc =>
    unfold SanitizeCost at hcost
    rw [hpc] at hcost
    exact h.quiet reply (by rw [hpc]; rfl) (Nat.succ_le_succ hcost) nofun
  | exceeds current hpc hhead hvalid hsize =>
    unfold SanitizeCost at hcost
    rw [hpc] at hcost
    exact h.quiet reply (by rw [hpc]; rfl)
      ⟨hvalid, hsize, Nat.succ_le_succ hcost, .inl hhead⟩ nofun
  | conflict current hpc hhead =>
    unfold SanitizeCost at hcost
    rw [hpc] at hcost
    obtain ⟨hvalid, hsize, -, hsame | hspare⟩ := hcost
    · exact absurd hsame (hhead hvalid hsize)
    · exact h.quiet reply (by rw [hpc]; rfl) hspare nofun
  | lost current hpc hhead => exact h.lost reply hpc hhead
  | exchanged current hpc hhead => exact h.exchanged reply hpc hhead

theorem bound : g.commands ≤ 2 * (1 + g.changes + 2 * g.losts) := by
  have hlates := h.lates
  have hcost : g.commands ≤ 2 * (g.changes + g.losts + g.lates) + 2 := by
    cases hrun : S.pc.running with
    | true => exact Nat.le_of_succ_le (h.cost.finish hrun)
    | false => exact h.cost.stopped hrun
  omega

end

theorem start (b : Backend) :
    SanitizeInv ino boundary (sanitizeStart boundary b) ⟨[], [], 0, 0, 0, 0⟩ where
  pending _ he := nomatch he
  lates := Nat.le_refl _
  cost := by
    unfold sanitizeStart
    split <;> exact Nat.zero_le _
  cleared := by
    unfold sanitizeStart
    split <;> nofun
  shrinks _ hw := nomatch hw

theorem step
    (h : SanitizeInv ino boundary S g) (hstep : sanitizeStep ino boundary S ev = some (l, S')) :
    SanitizeInv ino boundary S' (sanitizeWatch boundary g S l) := by
  cases ev with
  | head x =>
    cases hstep
    exact h.head x
  | file redis =>
    cases hstep
    exact h.file redis
  | late =>
    unfold sanitizeStep at hstep
    dsimp only at hstep
    split at hstep
    next => cases hstep
    next current rest hp =>
      cases hstep
      exact h.late hp
  | command reply =>
    cases hstep
    exact h.command reply

theorem run (b : Backend) (evs : List SanitizeEvent) :
    SanitizeInv ino boundary (sanitizeRun ino boundary b evs).1
      (sanitizeRun ino boundary b evs).2 := by
  exact runWith_always (sanitizeStep ino boundary) (sanitizeWatch boundary)
    (fun _ _ _ _ _ hI hs => SanitizeInv.step hI hs) evs (start b)

end SanitizeInv

/--
どの交互の実行でも、

* OK で返れば、呼び出しの間のどこかの時点で、head は可視の長さに収まっていたか、
  ChunkID はその位置に取り付けられていなかった
* 後から効いたものも含めて、この呼び出しの CAS は revision を変えず、size を増やさない
* 進めた手の数は、ほかの client が head に書いた回数と失われた返事の数で抑えられる
-/
theorem sanitize_boundary_sound (ino : InodeID) (boundary : RetainedChunkBoundary) (b : Backend)
    (evs : List SanitizeEvent) :
    ((sanitizeRun ino boundary b evs).1.pc = .done (.ok ()) →
      ∃ b' ∈ (sanitizeRun ino boundary b evs).2.instants, BoundaryClear ino boundary b') ∧
    (∀ w ∈ (sanitizeRun ino boundary b evs).2.exchanges, HeadShrinks w) ∧
    (sanitizeRun ino boundary b evs).2.commands ≤
      2 * (1 + (sanitizeRun ino boundary b evs).2.changes
        + 2 * (sanitizeRun ino boundary b evs).2.losts) := by
  have h : SanitizeInv ino boundary _ _ := SanitizeInv.run b evs
  exact ⟨h.cleared, h.shrinks, h.bound⟩

def longHeadBackend : Backend :=
  { Slice.clampedBackend [] with cowHead := fun id => if id = 1 then some ⟨1, 8⟩ else none }

/-- 返事を失った CAS が、ほかの client の書きの後で出し直され、また返事を失い、後から効く -/
def lostReplyRun : List SanitizeEvent :=
  [.command .arrives, .command .lost, .head (some ⟨2, 6⟩), .command .arrives, .command .lost, .late,
    .command .arrives]

theorem sanitize_boundary_sound_lost :
    (sanitizeRun 2 ⟨0, 1, 4⟩ longHeadBackend lostReplyRun).1.pc = .done (.ok ()) ∧
      ∃ b' ∈ (sanitizeRun 2 ⟨0, 1, 4⟩ longHeadBackend lostReplyRun).2.instants,
        BoundaryClear 2 ⟨0, 1, 4⟩ b' :=
  ⟨rfl, (sanitize_boundary_sound 2 ⟨0, 1, 4⟩ longHeadBackend lostReplyRun).1 rfl⟩

end SwordFS.Chunk.Cow
