import Mathlib.Data.Finset.Sort
import SwordFS.Fuse.Properties.LockDeciders

/-!
# lock の再試行の調整役

登録、取り外し、取り消しと調整役がどう交互に進んでも成り立つこと。
-/

namespace SwordFS.Fuse

open List SwordFS.Infra SwordFS.Metadata SwordFS.Metadata.Lock Function

/-! ## 両立 -/

def Compat (a b : Waiter) : Prop := compatible a b = true ∧ compatible b a = true

theorem rangeConflicts_comm (a b : PosixRange) : rangeConflicts a b = rangeConflicts b a := by
  unfold rangeConflicts
  rw [Bool.and_comm (decide (a.start < endOfRange b)), Bool.or_comm]

theorem compat_of_key (hkey : a.key = b.key) (h : compatible a b = true) : Compat a b := by
  have hflock : a.flock = b.flock := congrArg (fun k : GroupKey => (ofLex k).2) hkey
  refine ⟨h, ?_⟩
  unfold compatible at h ⊢
  rw [← hflock, rangeConflicts_comm]
  split
  next hf =>
    rw [if_pos hf, Bool.and_comm] at h
    exact h
  next hf =>
    rw [if_neg hf] at h
    exact h

/-! ## group -/

namespace Scheduler

variable {S S' : Scheduler} {groups queue : List Group} {key : GroupKey} {id : Nat}

def Keyed (S : Scheduler) (key : GroupKey) (id : Nat) : Prop :=
  id < S.fresh ∧ (S.cells id).waiter.key = key

/-- どの group も自分の key の waiter だけを持つ -/
def GroupsOk (S : Scheduler) (groups : List Group) : Prop :=
  ∀ grp ∈ groups, ∀ id ∈ grp.2, S.Keyed grp.1 id

theorem GroupsOk.insert (h : S.GroupsOk groups) (hid : S.Keyed key id) :
    S.GroupsOk (insertGroup key id groups) := by
  have hnew : ∀ x ∈ [id], S.Keyed key x := by
    intro x hx
    rw [mem_singleton.mp hx]
    exact hid
  induction groups with
  | nil => exact forall_mem_cons.mpr ⟨hnew, fun _ hg => nomatch hg⟩
  | cons grp rest ih =>
    obtain ⟨k, ids⟩ := grp
    obtain ⟨hids, hrest⟩ := forall_mem_cons.mp h
    unfold insertGroup
    split
    next => exact forall_mem_cons.mpr ⟨hnew, h⟩
    next =>
      split
      next heq =>
        subst heq
        exact forall_mem_cons.mpr ⟨forall_mem_append.mpr ⟨hids, hnew⟩, hrest⟩
      next => exact forall_mem_cons.mpr ⟨hids, ih hrest⟩

theorem GroupsOk.window (h : S.GroupsOk groups) (start width : Nat) :
    S.GroupsOk (window groups start width) :=
  fun grp hg => h grp (window_subset hg)

end Scheduler

theorem keys_insertGroup {id : Nat}
    (h : k ∈ (insertGroup key id groups).map (·.1)) : k = key ∨ k ∈ groups.map (·.1) := by
  induction groups with
  | nil => exact .inl (mem_singleton.mp h)
  | cons grp rest ih =>
    obtain ⟨k', ids⟩ := grp
    unfold insertGroup at h
    split at h
    next => exact mem_cons.mp h
    next =>
      split at h
      next => exact .inr h
      next =>
        rcases mem_cons.mp h with rfl | hrest
        · exact .inr mem_cons_self
        · exact (ih hrest).imp_right (mem_cons_of_mem _)

theorem sorted_insertGroup {id : Nat} (h : (groups.map (·.1)).Pairwise (· < ·)) :
    ((insertGroup key id groups).map (·.1)).Pairwise (· < ·) := by
  induction groups with
  | nil => exact pairwise_singleton _ _
  | cons grp rest ih =>
    obtain ⟨k, ids⟩ := grp
    obtain ⟨hk, hrest⟩ := pairwise_cons.mp h
    unfold insertGroup
    split
    next hlt =>
      refine pairwise_cons.mpr ⟨?_, h⟩
      intro k' hk'
      rcases mem_cons.mp hk' with rfl | hmem
      · exact hlt
      · exact hlt.trans (hk k' hmem)
    next hge =>
      split
      next => exact h
      next hne =>
        refine pairwise_cons.mpr ⟨?_, ih hrest⟩
        intro k' hk'
        rcases keys_insertGroup hk' with rfl | hmem
        · exact lt_of_le_of_ne (not_lt.mp hge) (Ne.symm hne)
        · exact hk k' hmem

/-! ## tick -/

namespace Tick

def width (t : Tick) : Nat := min kMaxGroupsPerTick t.groups.length

def next (t : Tick) : Nat := (t.start + t.width) % 2 ^ 64

def plan (t : Tick) : List GroupKey := window t.groups t.start t.width

/-- 終わった tick -/
structure Done (t : Tick) : Prop where
  inspected : t.inspected = t.plan
  sorted : t.groups.Pairwise (· < ·)

end Tick

/-- `next_group_` が `n` から `m` へ進む間の tick の列 -/
def Chain : Nat → List Tick → Nat → Prop
  | n, [], m => n = m
  | n, t :: ts, m => t.start = n ∧ Chain t.next ts m

theorem Chain.snoc (h : Chain n ts t.start) : Chain n (ts ++ [t]) t.next := by
  induction ts generalizing n with
  | nil => exact ⟨Eq.symm h, rfl⟩
  | cons u us ih => exact ⟨h.1, ih h.2⟩

theorem Chain.suffix (h : Chain n (front ++ ts) m)
    (hn : n < 2 ^ 64) : ∃ k < 2 ^ 64, Chain k ts m := by
  induction front generalizing n with
  | nil => exact ⟨n, hn, h⟩
  | cons u us ih => exact ih h.2 (Nat.mod_lt _ (Nat.two_pow_pos 64))

theorem Chain.front (h : Chain n (ts ++ back) m) : ∃ k, Chain n ts k := by
  induction ts generalizing n with
  | nil => exact ⟨n, rfl⟩
  | cons u us ih =>
    obtain ⟨k, hk⟩ := ih h.2
    exact ⟨k, h.1, hk⟩

/-! ## 不変条件 -/

def Idle (S : Scheduler) (g : SchedulerLog) : Prop :=
  g.current = none ∧ Chain 0 g.ticks S.nextGroup

/-- tick の途中。`queue` の group がまだ調べられていない -/
structure Ticking (S : Scheduler) (g : SchedulerLog) (queue : List Group) (t : Tick) : Prop where
  current : g.current = some t
  chain : Chain 0 g.ticks t.start
  next : S.nextGroup = t.next
  plan : t.inspected ++ queue.map (·.1) = t.plan
  sorted : t.groups.Pairwise (· < ·)
  queued : S.GroupsOk queue

/-- group の loop の途中。`woken` はここまでに error 0 で起こした waiter -/
def PassInv (S : Scheduler) (key : GroupKey) (woken : List Waiter) : PassPc → Prop
  | .failing .. => True
  | .selecting _ todo selected =>
    (∀ id ∈ todo, S.Keyed key id) ∧ (∀ w ∈ selected, w.key = key) ∧ ∀ w ∈ woken, w ∈ selected

/-- 起こそうとしている waiter は、これまでに起こした waiter と両立し、既に選ばれている -/
def NotifyInv (S : Scheduler) (woken : List Waiter) (id : Nat) : Option Status → PassPc → Prop
  | some _, _ => True
  | none, .failing .. => False
  | none, .selecting _ _ selected =>
    id < S.fresh ∧ (S.cells id).waiter ∈ selected ∧
      ∀ w ∈ woken, Compat (S.cells id).waiter w

def PcInv (S : Scheduler) (g : SchedulerLog) : CoordinatorPc → Prop
  | .check | .probe | .sleep | .exited => Idle S g
  | .collect todo groups =>
    Idle S g ∧ (∀ id ∈ todo, id < S.fresh) ∧ S.GroupsOk groups ∧
      (groups.map (·.1)).Pairwise (· < ·)
  | .inspect queue => ∃ t, Ticking S g queue t
  | .pass p queue =>
    (∃ t, Ticking S g queue t) ∧ ∃ key woken rest, g.passes = woken :: rest ∧ PassInv S key woken p
  | .load id error p queue | .exchange id error p queue =>
    (∃ t, Ticking S g queue t) ∧ ∃ key woken rest, g.passes = woken :: rest ∧
      PassInv S key woken p ∧ NotifyInv S woken id error p

/-- `cur` は生きている調整役 -/
structure SchedulerInv (S : Scheduler) (g : SchedulerLog) (cur : Option CoordinatorPc) :
    Prop where
  lone : ∃ n, S.coordinators = List.replicate n .exited ++ cur.toList
  live : ∀ pc ∈ cur, pc.live = true
  running : S.coordinatorRunning = cur.isSome
  served : S.waiters ≠ [] → S.coordinatorRunning = true
  fresh : ∀ id ∈ S.waiters, id < S.fresh
  posts : ∀ id, (S.cells id).posts = if (S.cells id).notified then 1 else 0
  cursor : S.nextGroup < 2 ^ 64
  pc : PcInv S g (cur.getD .exited)
  ticks : ∀ t ∈ g.ticks, t.Done
  passes : ∀ pass ∈ g.passes, pass.Pairwise Compat

/-! ## 周りの動き -/

/-- 登録された waiter の内容と cursor は変わらない -/
structure Extends (S S' : Scheduler) : Prop where
  fresh : S.fresh ≤ S'.fresh
  waiter : ∀ id < S.fresh, (S'.cells id).waiter = (S.cells id).waiter
  next : S'.nextGroup = S.nextGroup

section

variable {S S' : Scheduler} {g : SchedulerLog} {cur : Option CoordinatorPc} {pc pc' : CoordinatorPc}

variable {id : Nat}

theorem Scheduler.Keyed.extend (h : S.Keyed key id) (he : Extends S S') : S'.Keyed key id :=
  ⟨h.1.trans_le he.fresh, by rw [he.waiter id h.1]; exact h.2⟩

theorem Scheduler.GroupsOk.extend (h : S.GroupsOk groups)
    (he : Extends S S') : S'.GroupsOk groups :=
  fun grp hg id hid => (h grp hg id hid).extend he

theorem Idle.extend (h : Idle S g) (he : Extends S S') : Idle S' g :=
  ⟨h.1, by rw [he.next]; exact h.2⟩

theorem Ticking.extend (h : Ticking S g queue t) (he : Extends S S') : Ticking S' g queue t :=
  ⟨h.current, h.chain, he.next.trans h.next, h.plan, h.sorted, h.queued.extend he⟩

theorem PassInv.extend
    (h : PassInv S key woken p) (he : Extends S S') : PassInv S' key woken p := by
  cases p with
  | failing e todo => trivial
  | selecting holders todo selected =>
    exact ⟨fun id hid => (h.1 id hid).extend he, h.2.1, h.2.2⟩

theorem NotifyInv.extend
    (h : NotifyInv S woken id error p) (he : Extends S S') : NotifyInv S' woken id error p := by
  cases error with
  | some e => trivial
  | none =>
    cases p with
    | failing e todo => exact h
    | selecting holders todo selected =>
      obtain ⟨hid, hmem, hcompat⟩ := h
      refine ⟨hid.trans_le he.fresh, ?_⟩
      rw [he.waiter id hid]
      exact ⟨hmem, hcompat⟩

theorem PcInv.extend (h : PcInv S g pc) (he : Extends S S') : PcInv S' g pc := by
  cases pc with
  | check | probe | sleep | exited => exact Idle.extend h he
  | collect todo groups =>
    obtain ⟨hidle, htodo, hgroups, hsorted⟩ := h
    exact ⟨hidle.extend he, fun id hid => (htodo id hid).trans_le he.fresh, hgroups.extend he,
      hsorted⟩
  | inspect queue =>
    obtain ⟨t, ht⟩ := h
    exact ⟨t, ht.extend he⟩
  | pass p queue =>
    obtain ⟨⟨t, ht⟩, key, woken, rest, hpasses, hpass⟩ := h
    exact ⟨⟨t, ht.extend he⟩, key, woken, rest, hpasses, hpass.extend he⟩
  | load id error p queue | exchange id error p queue =>
    obtain ⟨⟨t, ht⟩, key, woken, rest, hpasses, hpass, hnotify⟩ := h
    exact ⟨⟨t, ht.extend he⟩, key, woken, rest, hpasses, hpass.extend he, hnotify.extend he⟩

theorem extends_setCell (h : cell.waiter = (S.cells id).waiter) :
    Extends S (S.setCell id cell) where
  fresh := Nat.le_refl _
  waiter j _ := by
    show (update S.cells id cell j).waiter = _
    by_cases hj : j = id
    · rw [hj, update_self, h]
    · rw [update_of_ne hj]
  next := rfl

theorem posts_setCell (h : ∀ j, (S.cells j).posts = if (S.cells j).notified then 1 else 0)
    (hcell : cell.posts = if cell.notified then 1 else 0) (j : Nat) :
    ((S.setCell id cell).cells j).posts
      = if ((S.setCell id cell).cells j).notified then 1 else 0 := by
  show (update S.cells id cell j).posts
    = if (update S.cells id cell j).notified then 1 else 0
  by_cases hj : j = id
  · rw [hj, update_self]
    exact hcell
  · rw [update_of_ne hj]
    exact h j

namespace SchedulerInv

theorem environment (h : SchedulerInv S g cur) (he : Extends S S')
    (hcoordinators : S'.coordinators = S.coordinators)
    (hrunning : S'.coordinatorRunning = S.coordinatorRunning)
    (hserved : S'.waiters ≠ [] → S.coordinatorRunning = true)
    (hfresh : ∀ id ∈ S'.waiters, id < S'.fresh)
    (hposts : ∀ id, (S'.cells id).posts = if (S'.cells id).notified then 1 else 0) :
    SchedulerInv S' g cur where
  lone := by rw [hcoordinators]; exact h.lone
  live := h.live
  running := hrunning.trans h.running
  served hne := hrunning.trans (hserved hne)
  fresh := hfresh
  posts := hposts
  cursor := by rw [he.next]; exact h.cursor
  pc := h.pc.extend he
  ticks := h.ticks
  passes := h.passes

theorem remove (h : SchedulerInv S g cur) (id : Nat) : SchedulerInv (S.removeWaiter id) g cur := by
  have he : Extends S (S.setCell id { S.cells id with active := false }) := extends_setCell rfl
  refine h.environment ⟨he.fresh, he.waiter, he.next⟩ rfl rfl ?_ ?_ ?_
  · intro hne
    refine h.served ?_
    rintro hnil
    exact hne (by rw [Scheduler.removeWaiter, hnil]; rfl)
  · exact fun j hj => h.fresh j (mem_filter.mp hj).1
  · exact posts_setCell h.posts (h.posts id)

variable {id i : Nat}

section

variable (h : SchedulerInv S g cur)
include h

theorem posts_post (hid : (S.cells id).notified = false) (error : Option Status) (j : Nat) :
    ((S.post id error).cells j).posts = if ((S.post id error).cells j).notified then 1 else 0 := by
  refine posts_setCell h.posts ?_ j
  have hzero := h.posts id
  rw [hid] at hzero
  show (S.cells id).posts + 1 = 1
  rw [hzero]
  rfl

theorem cancel (id : Nat) : SchedulerInv (S.cancel id) g cur := by
  unfold Scheduler.cancel
  split
  next => exact h
  next hid =>
    exact h.environment (extends_setCell rfl) rfl rfl h.served h.fresh
      (h.posts_post (Bool.eq_false_iff.mpr hid) _)

theorem registered (w : Waiter) (waiters : List Nat) (hwaiters : ∀ id ∈ waiters, id < S.fresh + 1)
    (hserved : waiters ≠ [] → S.coordinatorRunning = true) :
    SchedulerInv { S.setCell S.fresh { waiter := w } with
      fresh := S.fresh + 1, waiters := waiters } g cur := by
  refine h.environment ⟨Nat.le_succ _, ?_, rfl⟩ rfl rfl hserved hwaiters
    (posts_setCell h.posts rfl)
  intro id hid
  show (update S.cells S.fresh _ id).waiter = _
  rw [update_of_ne (Nat.ne_of_lt hid)]

theorem register (w : Waiter) (submitted : Bool) :
    ∃ cur', SchedulerInv (S.registerWaiter w submitted).2 g cur' := by
  have hold : ∀ id ∈ S.waiters, id < S.fresh + 1 := fun id hid => Nat.lt_succ_of_lt (h.fresh id hid)
  have hnew : ∀ id ∈ S.waiters ++ [S.fresh], id < S.fresh + 1 := by
    refine forall_mem_append.mpr ⟨hold, ?_⟩
    intro id hid
    rw [mem_singleton.mp hid]
    exact Nat.lt_succ_self _
  unfold Scheduler.registerWaiter
  dsimp only
  split
  next => exact ⟨cur, h⟩
  next =>
    split
    next hrun => exact ⟨cur, h.registered w _ hnew fun _ => hrun⟩
    next hrun =>
      have hcur : cur = none := by
        have hnone := h.running
        rw [Bool.eq_false_iff.mpr hrun] at hnone
        exact Option.isNone_iff_eq_none.mp (by simpa using hnone.symm)
      subst hcur
      split
      next => exact ⟨none, h.registered w _ hold h.served⟩
      next =>
        -- 生きた調整役は無かったので、いま submit したものだけになる
        have hbase := h.registered w S.waiters hold h.served
        obtain ⟨n, hn⟩ := h.lone
        refine ⟨some .check, ⟨⟨n, ?_⟩, ?_, rfl, fun _ => rfl, hnew, hbase.posts, hbase.cursor,
          hbase.pc, hbase.ticks, hbase.passes⟩⟩
        · show S.coordinators ++ [.check] = _
          rw [hn, Option.toList_none, append_nil]
          rfl
        · rintro pc ⟨⟩
          rfl

end

/-! ## 調整役の一手 -/

theorem current (h : SchedulerInv S g cur) (hi : S.coordinators[i]? = some pc)
    (hlive : pc.live = true) :
    cur = some pc ∧ ∃ n, ∀ pc', S.coordinators.set i pc' = List.replicate n .exited ++ [pc'] := by
  obtain ⟨n, hn⟩ := h.lone
  rw [hn] at hi ⊢
  rcases Nat.lt_or_ge i n with hlt | hge
  · rw [getElem?_append_left (by simpa using hlt), getElem?_replicate, if_pos hlt] at hi
    cases hi
    cases hlive
  · rw [getElem?_append_right (by simpa using hge), length_replicate] at hi
    cases cur with
    | none => simp at hi
    | some pc₀ =>
      obtain rfl : i = n := by
        have hlt := (List.getElem?_eq_some_iff.mp hi).1
        simp at hlt
        omega
      rw [Nat.sub_self] at hi
      cases hi
      refine ⟨rfl, i, fun pc' => ?_⟩
      rw [set_append_right _ _ (by simp)]
      simp

theorem moved (h : SchedulerInv S g (some pc)) (hi : S.coordinators[i]? = some pc)
    (hlive : pc'.live = true) (hwaiters : S'.waiters = S.waiters)
    (hrunning : S'.coordinatorRunning = S.coordinatorRunning)
    (hcoordinators : S'.coordinators = S.coordinators) (hfresh : S'.fresh = S.fresh)
    (hposts : ∀ id, (S'.cells id).posts = if (S'.cells id).notified then 1 else 0)
    (hcursor : S'.nextGroup < 2 ^ 64) (hpc : PcInv S' g' pc') (hticks : ∀ t ∈ g'.ticks, t.Done)
    (hpasses : ∀ pass ∈ g'.passes, pass.Pairwise Compat) :
    SchedulerInv { S' with coordinators := S'.coordinators.set i pc' } g' (some pc') where
  lone := by
    obtain ⟨-, n, hn⟩ := h.current hi (h.live pc rfl)
    refine ⟨n, ?_⟩
    rw [hcoordinators]
    exact hn pc'
  live := by
    rintro pc ⟨⟩
    exact hlive
  running := hrunning.trans h.running
  served hne := by
    show S'.coordinatorRunning = true
    rw [hrunning]
    exact h.running
  fresh id hid := by
    show id < S'.fresh
    rw [hfresh]
    exact h.fresh id (hwaiters ▸ hid)
  posts := hposts
  cursor := hcursor
  pc := hpc.extend ⟨Nat.le_refl _, fun _ _ => rfl, rfl⟩
  ticks := hticks
  passes := hpasses

theorem silent (h : SchedulerInv S g (some pc)) (hi : S.coordinators[i]? = some pc)
    (hlive : pc'.live = true) (hpc : PcInv S g pc') :
    SchedulerInv { S with coordinators := S.coordinators.set i pc' } g (some pc') :=
  h.moved hi hlive rfl rfl rfl rfl h.posts h.cursor hpc h.ticks h.passes

variable {i : Nat} {reply : Result (List LockHolder)}

/-- 一手の後の system と記録が、生きた調整役の高々一つある不変条件を満たす -/
def Advances (S : Scheduler) (g : SchedulerLog) (i : Nat)
    (r : Option (SchedulerLabel × Scheduler × CoordinatorPc)) : Prop :=
  ∀ label S' pc', r = some (label, S', pc') → ∃ cur',
    SchedulerInv { S' with coordinators := S'.coordinators.set i pc' } (g.watch S label) cur'

theorem advance_check (h : SchedulerInv S g (some .check))
    (hi : S.coordinators[i]? = some .check) : Advances S g i (S.advance reply .check) := by
  intro label S' pc' hstep
  rw [Scheduler.advance] at hstep
  split at hstep
  next hempty =>
    cases hstep
    obtain ⟨-, n, hn⟩ := h.current hi rfl
    have hidle : Idle S g := h.pc
    have hlive : ∀ pc ∈ (none : Option CoordinatorPc), pc.live = true := by
      intro pc hpc
      cases hpc
    refine ⟨none, ⟨⟨n + 1, ?_⟩, hlive, rfl, fun hne => absurd hempty hne, h.fresh, h.posts,
      h.cursor, hidle, h.ticks, h.passes⟩⟩
    show S.coordinators.set i .exited = _
    rw [hn, Option.toList_none, append_nil, replicate_succ']
  next =>
    cases hstep
    exact ⟨_, h.silent hi rfl h.pc⟩

theorem advance_collect (h : SchedulerInv S g (some (.collect todo groups)))
    (hi : S.coordinators[i]? = some (.collect todo groups)) :
    Advances S g i (S.advance reply (.collect todo groups)) := by
  intro label S' pc' hstep
  obtain ⟨hidle, htodo, hgroups, hsorted⟩ := h.pc
  cases todo with
  | cons id todo =>
    obtain ⟨hid, htodo⟩ := forall_mem_cons.mp htodo
    cases hstep
    refine ⟨_, h.silent hi rfl ⟨hidle, htodo, ?_⟩⟩
    split
    next => exact ⟨hgroups.insert ⟨hid, rfl⟩, sorted_insertGroup hsorted⟩
    next => exact ⟨hgroups, hsorted⟩
  | nil =>
    rw [Scheduler.advance] at hstep
    split at hstep
    next =>
      -- 空の tick は cursor を動かさない
      cases hstep
      have hnext : Tick.next ⟨S.nextGroup, [], []⟩ = S.nextGroup := Nat.mod_eq_of_lt h.cursor
      have hchain : Chain 0 (g.ticks ++ [⟨S.nextGroup, [], []⟩])
          (Tick.next ⟨S.nextGroup, [], []⟩) := Chain.snoc hidle.2
      rw [hnext] at hchain
      refine ⟨_, h.moved hi rfl rfl rfl rfl rfl h.posts h.cursor ⟨hidle.1, hchain⟩ ?_ h.passes⟩
      refine forall_mem_append.mpr ⟨h.ticks, ?_⟩
      intro t ht
      rw [mem_singleton.mp ht]
      exact ⟨rfl, List.Pairwise.nil⟩
    next =>
      cases hstep
      let t : Tick := ⟨S.nextGroup, groups.map (·.1), []⟩
      have hwidth : Scheduler.budget groups = t.width := by
        show min _ _ = min _ (groups.map (·.1)).length
        rw [length_map]
      have hcursor : (S.nextGroup + Scheduler.budget groups) % 2 ^ 64 < 2 ^ 64 :=
        Nat.mod_lt _ (Nat.two_pow_pos 64)
      refine ⟨_, h.moved hi rfl rfl rfl rfl rfl h.posts hcursor ⟨t, rfl, hidle.2, ?_, ?_, hsorted,
        ?_⟩ h.ticks h.passes⟩
      · show (S.nextGroup + Scheduler.budget groups) % 2 ^ 64 = t.next
        rw [hwidth]
        rfl
      · show [] ++ (window groups S.nextGroup (Scheduler.budget groups)).map (·.1) = t.plan
        rw [nil_append, window_map, hwidth]
        rfl
      · exact hgroups.window _ _

variable {queue : List Group}

theorem advance_inspect (h : SchedulerInv S g (some (.inspect queue)))
    (hi : S.coordinators[i]? = some (.inspect queue)) :
    Advances S g i (S.advance reply (.inspect queue)) := by
  intro label S' pc' hstep
  obtain ⟨t, ht⟩ := h.pc
  cases queue with
  | nil =>
    cases hstep
    have hdone : t.inspected = t.plan := by
      have hplan := ht.plan
      rw [map_nil, append_nil] at hplan
      exact hplan
    have hticks : g.ticks ++ g.current.toList = g.ticks ++ [t] := by rw [ht.current]; rfl
    have hidle : Idle S (g.watch S .ended) := by
      refine ⟨rfl, ?_⟩
      show Chain 0 (g.ticks ++ g.current.toList) S.nextGroup
      rw [hticks, ht.next]
      exact ht.chain.snoc
    refine ⟨_, h.moved hi rfl rfl rfl rfl rfl h.posts h.cursor hidle ?_ h.passes⟩
    show ∀ t ∈ g.ticks ++ g.current.toList, t.Done
    rw [hticks]
    refine forall_mem_append.mpr ⟨h.ticks, ?_⟩
    intro u hu
    rw [mem_singleton.mp hu]
    exact ⟨hdone, ht.sorted⟩
  | cons grp queue =>
    obtain ⟨key, ids⟩ := grp
    obtain ⟨hids, hqueue⟩ := forall_mem_cons.mp ht.queued
    have hpasses : ∀ pass ∈ [] :: g.passes, pass.Pairwise Compat :=
      forall_mem_cons.mpr ⟨List.Pairwise.nil, h.passes⟩
    have htick : ∃ t, Ticking S (g.watch S (.inspected key)) queue t := by
      refine ⟨{ t with inspected := t.inspected ++ [key] }, ?_, ht.chain, ht.next, ?_, ht.sorted,
        hqueue⟩
      · show g.current.map _ = _
        rw [ht.current]
        rfl
      · rw [append_assoc]
        exact ht.plan
    cases reply with
    | error e =>
      cases hstep
      exact ⟨_, h.moved hi rfl rfl rfl rfl rfl h.posts h.cursor
        ⟨htick, key, [], g.passes, rfl, trivial⟩ h.ticks hpasses⟩
    | ok holders =>
      cases hstep
      exact ⟨_, h.moved hi rfl rfl rfl rfl rfl h.posts h.cursor
        ⟨htick, key, [], g.passes, rfl, hids, forall_mem_nil _, forall_mem_nil _⟩
        h.ticks hpasses⟩

/-- 選ばれる waiter は、これまでに選んだ waiter のすべてと両立する -/
theorem examine_inv (ht : Ticking S g queue t) (hpasses : g.passes = woken :: rest)
    (hid : S.Keyed key id) (htodo : ∀ id ∈ todo, S.Keyed key id)
    (hselected : ∀ w ∈ selected, w.key = key) (hwoken : ∀ w ∈ woken, w ∈ selected) :
    (S.examine holders id todo selected queue).live = true ∧
      PcInv S g (S.examine holders id todo selected queue) := by
  have hskip : PcInv S g (.pass (.selecting holders todo selected) queue) :=
    ⟨⟨t, ht⟩, key, woken, rest, hpasses, htodo, hselected, hwoken⟩
  unfold Scheduler.examine
  dsimp only
  split
  next => exact ⟨rfl, hskip⟩
  next =>
    split
    next => exact ⟨rfl, hskip⟩
    next hcompat =>
      have hrest : ∀ id' ∈ if kMaxWakePerGroup ≤ selected.length + 1 then [] else todo,
          S.Keyed key id' := by
        split
        next => exact forall_mem_nil _
        next => exact htodo
      have hall : ∀ w ∈ woken, Compat (S.cells id).waiter w := by
        intro w hw
        refine compat_of_key (hid.2.trans (hselected w (hwoken w hw)).symm) ?_
        have hnot := fun hbad => hcompat (any_eq_true.mpr ⟨w, hwoken w hw, hbad⟩)
        simpa using hnot
      refine ⟨rfl, ⟨t, ht⟩, key, woken, rest, hpasses, ⟨hrest, ?_, ?_⟩, hid.1, ?_, hall⟩
      · refine forall_mem_append.mpr ⟨hselected, ?_⟩
        intro w hw
        rw [mem_singleton.mp hw]
        exact hid.2
      · exact fun w hw => mem_append_left _ (hwoken w hw)
      · exact mem_append_right _ mem_cons_self

variable {p : PassPc}

theorem advance_pass (h : SchedulerInv S g (some (.pass p queue)))
    (hi : S.coordinators[i]? = some (.pass p queue)) :
    Advances S g i (S.advance reply (.pass p queue)) := by
  intro label S' pc' hstep
  obtain ⟨⟨t, ht⟩, key, woken, rest, hpasses, hpass⟩ := h.pc
  cases p with
  | failing e todo =>
    cases todo with
    | nil =>
      cases hstep
      exact ⟨_, h.silent hi rfl ⟨t, ht⟩⟩
    | cons id todo =>
      cases hstep
      exact ⟨_, h.silent hi rfl ⟨⟨t, ht⟩, key, woken, rest, hpasses, trivial, trivial⟩⟩
  | selecting holders todo selected =>
    obtain ⟨htodo, hselected, hwoken⟩ := hpass
    cases todo with
    | nil =>
      cases hstep
      exact ⟨_, h.silent hi rfl ⟨t, ht⟩⟩
    | cons id todo =>
      obtain ⟨hid, htodo⟩ := forall_mem_cons.mp htodo
      cases hstep
      obtain ⟨hlive, hpc⟩ := examine_inv ht hpasses hid htodo hselected hwoken
      exact ⟨_, h.silent hi hlive hpc⟩

variable {error : Option Status}

theorem advance_load (h : SchedulerInv S g (some (.load id error p queue)))
    (hi : S.coordinators[i]? = some (.load id error p queue)) :
    Advances S g i (S.advance reply (.load id error p queue)) := by
  intro label S' pc' hstep
  obtain ⟨htick, key, woken, rest, hpasses, hpass, hnotify⟩ := h.pc
  cases hstep
  split
  next => exact ⟨_, h.silent hi rfl ⟨htick, key, woken, rest, hpasses, hpass, hnotify⟩⟩
  next => exact ⟨_, h.silent hi rfl ⟨htick, key, woken, rest, hpasses, hpass⟩⟩

theorem woken_inv
    (hpasses : g.passes = woken :: rest) (hcompat : ∀ pass ∈ g.passes, pass.Pairwise Compat)
    (hpass : PassInv S key woken p) (hnotify : NotifyInv S woken id error p) :
    (∀ pass ∈ (g.watch S (.woke (S.cells id).waiter error)).passes, pass.Pairwise Compat) ∧
      ∃ woken', (g.watch S (.woke (S.cells id).waiter error)).passes = woken' :: rest ∧
        PassInv S key woken' p := by
  cases error with
  | some e => exact ⟨hcompat, woken, hpasses, hpass⟩
  | none =>
    have hnew : (g.watch S (.woke (S.cells id).waiter none)).passes
        = ((S.cells id).waiter :: woken) :: rest := by
      show SchedulerLog.wake _ g.passes = _
      rw [hpasses]
      rfl
    cases p with
    | failing e todo => exact absurd hnotify not_false
    | selecting holders todo selected =>
      obtain ⟨-, hmem, hall⟩ := hnotify
      obtain ⟨htodo, hselected, hwoken⟩ := hpass
      rw [hpasses] at hcompat
      obtain ⟨hhead, hrest⟩ := forall_mem_cons.mp hcompat
      rw [hnew]
      exact ⟨forall_mem_cons.mpr ⟨pairwise_cons.mpr ⟨hall, hhead⟩, hrest⟩, _, rfl, htodo,
        hselected, forall_mem_cons.mpr ⟨hmem, hwoken⟩⟩

theorem advance_exchange (h : SchedulerInv S g (some (.exchange id error p queue)))
    (hi : S.coordinators[i]? = some (.exchange id error p queue)) :
    Advances S g i (S.advance reply (.exchange id error p queue)) := by
  intro label S' pc' hstep
  obtain ⟨⟨t, ht⟩, key, woken, rest, hpasses, hpass, hnotify⟩ := h.pc
  rw [Scheduler.advance] at hstep
  split at hstep
  next =>
    cases hstep
    exact ⟨_, h.silent hi rfl ⟨⟨t, ht⟩, key, woken, rest, hpasses, hpass⟩⟩
  next hid =>
    cases hstep
    have he : Extends S (S.post id error) := extends_setCell rfl
    obtain ⟨hcompat, woken', hpasses', hpass'⟩ := woken_inv hpasses h.passes hpass hnotify
    have htick : Ticking S (g.watch S (.woke (S.cells id).waiter error)) queue t := by
      cases error with
      | none => exact ⟨ht.current, ht.chain, ht.next, ht.plan, ht.sorted, ht.queued⟩
      | some e => exact ht
    have hticks : (g.watch S (.woke (S.cells id).waiter error)).ticks = g.ticks := by
      cases error <;> rfl
    exact ⟨_, h.moved hi rfl rfl rfl rfl rfl (h.posts_post (Bool.eq_false_iff.mpr hid) error)
      h.cursor ⟨⟨t, htick.extend he⟩, key, woken', rest, hpasses', hpass'.extend he⟩
      (hticks ▸ h.ticks) hcompat⟩

theorem advance (h : SchedulerInv S g cur) (hi : S.coordinators[i]? = some pc) :
    Advances S g i (S.advance reply pc) := by
  cases hlive : pc.live with
  | false =>
    cases pc with
    | exited =>
      intro label S' pc' hstep
      cases hstep
    | check | probe | collect | inspect | pass | load | exchange | sleep => cases hlive
  | true =>
    obtain ⟨rfl, -⟩ := h.current hi hlive
    cases pc with
    | check => exact h.advance_check hi
    | probe =>
      intro label S' pc' hstep
      have hidle : Idle S g := h.pc
      cases hstep
      exact ⟨_, h.silent hi rfl ⟨hidle, h.fresh, forall_mem_nil _, List.Pairwise.nil⟩⟩
    | collect todo groups => exact h.advance_collect hi
    | inspect queue => exact h.advance_inspect hi
    | pass p queue => exact h.advance_pass hi
    | load id error p queue => exact h.advance_load hi
    | exchange id error p queue => exact h.advance_exchange hi
    | sleep =>
      intro label S' pc' hstep
      have hidle : Idle S g := h.pc
      cases hstep
      exact ⟨_, h.silent hi rfl hidle⟩
    | exited => cases hlive

theorem step (h : ∃ cur, SchedulerInv S g cur) (hstep : schedulerStep S ev = some (label, S')) :
    ∃ cur, SchedulerInv S' (g.watch S label) cur := by
  obtain ⟨cur, h⟩ := h
  cases ev with
  | register w submitted =>
    unfold schedulerStep at hstep
    dsimp only at hstep
    split at hstep
    next =>
      cases hstep
      exact h.register w submitted
    next => cases hstep
  | remove id =>
    unfold schedulerStep at hstep
    dsimp only at hstep
    split at hstep
    next =>
      cases hstep
      exact ⟨cur, h.remove id⟩
    next => cases hstep
  | cancel id =>
    unfold schedulerStep at hstep
    dsimp only at hstep
    split at hstep
    next =>
      cases hstep
      exact ⟨cur, h.cancel id⟩
    next => cases hstep
  | coordinator j reply =>
    obtain ⟨pc, hpc, ⟨label', S'', pc'⟩, hadv, heq⟩ :
        ∃ pc, S.coordinators[j]? = some pc ∧ ∃ r, S.advance reply pc = some r ∧
          (r.1, ({ r.2.1 with coordinators := r.2.1.coordinators.set j r.2.2 } : Scheduler))
            = (label, S') := by
      simpa [schedulerStep, Option.bind_eq_some_iff] using hstep
    cases heq
    exact h.advance hpc _ _ _ hadv

theorem start : SchedulerInv .initial ⟨[], none, []⟩ none where
  lone := ⟨0, rfl⟩
  live := by
    intro pc hpc
    cases hpc
  running := rfl
  served hne := absurd rfl hne
  fresh := forall_mem_nil _
  posts _ := rfl
  cursor := Nat.two_pow_pos 64
  pc := ⟨rfl, rfl⟩
  ticks := forall_mem_nil _
  passes := forall_mem_nil _

theorem run (evs : List SchedulerEvent) :
    ∃ cur, SchedulerInv (schedulerRun evs).1 (schedulerRun evs).2 cur := by
  exact runWith_always schedulerStep SchedulerLog.watch
    (I := fun S g => ∃ cur, SchedulerInv S g cur)
    (fun _ _ _ _ _ hI hs => SchedulerInv.step hI hs) evs ⟨none, start⟩

end SchedulerInv

end

/-! ## 順番 -/

section

variable {n m : Nat} {ts : List Tick} {keys : List GroupKey}

/-- 続いた tick の始まりは、cursor が一周するのを除けば、幅ずつ進む -/
theorem Chain.start_eq (h : Chain n ts m) (hn : n < 2 ^ 64) (hkeys : ∀ t ∈ ts, t.groups = keys)
    (hj : ts[j]? = some t) : t.start = (n + min kMaxGroupsPerTick keys.length * j) % 2 ^ 64 := by
  induction ts generalizing n j with
  | nil => simp at hj
  | cons u us ih =>
    obtain ⟨hu, hus⟩ := forall_mem_cons.mp hkeys
    obtain ⟨rfl, hrest⟩ := h
    cases j with
    | zero =>
      cases hj
      rw [Nat.mul_zero, Nat.add_zero, Nat.mod_eq_of_lt hn]
    | succ j =>
      rw [ih hrest (Nat.mod_lt _ (Nat.two_pow_pos 64)) hus hj, Tick.next, Tick.width, hu,
        Nat.mod_add_mod, Nat.mul_add, Nat.mul_one, Nat.add_assoc, Nat.add_comm (_ * j)]

theorem Chain.start_unwrapped (h : Chain n ts m) (hn : n < 2 ^ 64)
    (hkeys : ∀ t ∈ ts, t.groups = keys) (hmono : ts.Pairwise fun a b => a.start ≤ b.start)
    (hj : ts[j]? = some t) : t.start = n + min kMaxGroupsPerTick keys.length * j := by
  induction ts generalizing n j with
  | nil => simp at hj
  | cons u us ih =>
    obtain ⟨hu, hus⟩ := forall_mem_cons.mp hkeys
    obtain ⟨hle, hmono⟩ := pairwise_cons.mp hmono
    obtain ⟨rfl, hrest⟩ := h
    cases j with
    | zero =>
      cases hj
      rfl
    | succ j =>
      cases us with
      | nil => simp at hj
      | cons v vs =>
        have hnext : u.next = u.start + min kMaxGroupsPerTick keys.length := by
          have hv := hle v mem_cons_self
          have hw : min kMaxGroupsPerTick keys.length ≤ 4 := Nat.min_le_left _ _
          rw [hrest.1, Tick.next, Tick.width, hu] at hv
          rw [Tick.next, Tick.width, hu]
          omega
        rw [ih hrest (Nat.mod_lt _ (Nat.two_pow_pos 64)) hus hmono hj, hnext, Nat.mul_add,
          Nat.mul_one, Nat.add_assoc, Nat.add_comm (_ * j)]

theorem eq_of_sorted_keys {a b : List GroupKey} (ha : a.Pairwise (· < ·))
    (hb : b.Pairwise (· < ·)) (h : a.toFinset = b.toFinset) : a = b := by
  have hperm : a.Perm b := perm_of_nodup_nodup_toFinset_eq (ha.imp ne_of_lt)
    (hb.imp ne_of_lt) h
  exact hperm.eq_of_pairwise' (ha.imp le_of_lt) (hb.imp le_of_lt)

/-- group の集合が変わらず cursor が一周しなければ、続いた tick はどの group も調べる -/
theorem ticks_cover {gs : Finset GroupKey} (h : Chain n ts m) (hn : n < 2 ^ 64)
    (hdone : ∀ t ∈ ts, t.Done) (hgs : ∀ t ∈ ts, t.groups.toFinset = gs)
    (hlen : ts.length = (gs.card + 3) / 4)
    (hwrap : gs.card ∣ 2 ^ 64 ∨ ts.Pairwise fun a b => a.start ≤ b.start)
    (hkey : key ∈ gs) : ∃ t ∈ ts, key ∈ t.inspected := by
  have hpos : 0 < gs.card := Finset.card_pos.mpr ⟨key, hkey⟩
  cases ts with
  | nil =>
    rw [length_nil] at hlen
    omega
  | cons u us =>
    have hu := mem_cons_self (a := u) (l := us)
    have hkeys : ∀ t ∈ u :: us, t.groups = u.groups := fun t ht =>
      eq_of_sorted_keys (hdone t ht).sorted (hdone u hu).sorted ((hgs t ht).trans (hgs u hu).symm)
    have hcard : u.groups.length = gs.card := by
      rw [← hgs u hu, toFinset_card_of_nodup ((hdone u hu).sorted.imp ne_of_lt)]
    have hcover : u.groups.length
        ≤ min kMaxGroupsPerTick u.groups.length * (u :: us).length := by
      rw [hlen, hcard]
      show gs.card ≤ min 4 gs.card * _
      rcases Nat.le_total 4 gs.card with hle | hle
      · rw [Nat.min_eq_left hle]
        omega
      · rw [Nat.min_eq_right hle]
        exact Nat.le_mul_of_pos_right _ (by omega)
    have hmem : key ∈ u.groups := by
      rw [← mem_toFinset, hgs u hu]
      exact hkey
    obtain ⟨j, hj, hwin⟩ : ∃ j < (u :: us).length, key ∈ window u.groups (n + _ * j) _ :=
      windows_cover hcover hmem
    obtain ⟨t, ht⟩ : ∃ t, (u :: us)[j]? = some t := ⟨_, getElem?_eq_getElem hj⟩
    have htmem := mem_of_getElem? ht
    refine ⟨t, htmem, ?_⟩
    rw [(hdone t htmem).inspected, Tick.plan, Tick.width, hkeys t htmem]
    -- 一周しても、group の数が `2 ^ 64` を割り切れば位置は変わらない
    have hpos : t.start % u.groups.length
        = (n + min kMaxGroupsPerTick u.groups.length * j) % u.groups.length := by
      rcases hwrap with hdvd | hmono
      · rw [h.start_eq hn hkeys ht, Nat.mod_mod_of_dvd _ (hcard ▸ hdvd)]
      · rw [h.start_unwrapped hn hkeys hmono ht]
    unfold window at hwin ⊢
    rw [hpos]
    exact hwin

end

/-! ## 誰も起こさない tick -/

def blockedWaiter (ino : Nat) : Waiter :=
  { inodeIno := ino, kernelOwner := 1, flock := false, range := ⟨0, 0, .write, 0⟩ }

def blocker : LockHolder :=
  { kernelOwner := 2, localGeneration := false, ranges := [⟨0, 0, .write, 0⟩] }

def registerSix : List SchedulerEvent :=
  (List.range 6).map fun k => .register (blockedWaiter (k + 1)) true

/-- 調整役の一手。どの `Inspect` も holder を見つける -/
def blockedStep : SchedulerEvent := .coordinator 0 (.ok [blocker])

def sixGroups : List Group := (List.range 6).map fun k => (toLex (k + 1, false), [k])

def sixKeys : List GroupKey := sixGroups.map (·.1)

/-- 六つの inode の waiter が登録され、cursor が `n` にある -/
def sixWaiters (n : Nat) (pc : CoordinatorPc) : Scheduler :=
  { (schedulerRun registerSix).1 with nextGroup := n, coordinators := [pc] }

def sixTick (n : Nat) : Tick := ⟨n, sixKeys, window sixKeys n 4⟩

theorem collect_six (n : Nat) (g : SchedulerLog) :
    runWith schedulerStep SchedulerLog.watch (sixWaiters n .check, g)
        (List.replicate 8 blockedStep)
      = (sixWaiters n (.collect [] sixGroups), g) := by
  rfl

theorem plan_six (n : Nat) (g : SchedulerLog) :
    runWith schedulerStep SchedulerLog.watch (sixWaiters n (.collect [] sixGroups), g)
        [blockedStep]
      = (sixWaiters ((n + 4) % 2 ^ 64) (.inspect (window sixGroups n 4)),
        { g with current := some ⟨n, sixKeys, []⟩ }) := by
  rfl

theorem examine_blocked (hk : k < 6) (n : Nat) (pc : CoordinatorPc) (queue : List Group) :
    (sixWaiters n pc).examine [blocker] k [] [] queue
      = .pass (.selecting [blocker] [] []) queue := by
  have hall : ∀ j : Fin 6,
      eligible ((schedulerRun registerSix).1.cells j).waiter [blocker] = false := by decide
  have hcell : eligible ((sixWaiters n pc).cells k).waiter [blocker] = false := hall ⟨k, hk⟩
  unfold Scheduler.examine
  simp [hcell]

theorem pass_blocked (hk : k < 6) (n : Nat) (key : GroupKey) (queue : List Group)
    (g : SchedulerLog) :
    runWith schedulerStep SchedulerLog.watch (sixWaiters n (.inspect ((key, [k]) :: queue)), g)
        (List.replicate 3 blockedStep)
      = (sixWaiters n (.inspect queue), g.watch .initial (.inspected key)) := by
  have hsecond : schedulerStep
      (sixWaiters n (.pass (.selecting [blocker] [k] []) queue)) blockedStep
      = some (.silent, sixWaiters n (.pass (.selecting [blocker] [] []) queue)) := by
    rw [← examine_blocked hk n (.pass (.selecting [blocker] [k] []) queue) queue]
    rfl
  show runWith schedulerStep SchedulerLog.watch
    (sixWaiters n (.pass (.selecting [blocker] [k] []) queue), g.watch .initial (.inspected key))
    [blockedStep, blockedStep] = _
  rw [runWith, hsecond]
  rfl

variable {g : SchedulerLog}

theorem inspect_blocked (hqueue : ∀ grp ∈ queue, ∃ k < 6, grp.2 = [k])
    (n : Nat) (hg : g.current = some t) :
    ∃ g', runWith schedulerStep SchedulerLog.watch (sixWaiters n (.inspect queue), g)
        (List.replicate (3 * queue.length) blockedStep) = (sixWaiters n (.inspect []), g') ∧
      g'.ticks = g.ticks ∧
      g'.current = some { t with inspected := t.inspected ++ queue.map (·.1) } := by
  induction queue generalizing t g with
  | nil => exact ⟨g, rfl, rfl, by rw [hg, map_nil, append_nil]⟩
  | cons grp queue ih =>
    obtain ⟨⟨k, hk, hids⟩, hrest⟩ := forall_mem_cons.mp hqueue
    obtain ⟨key, ids⟩ := grp
    cases hids
    have hnext : (g.watch .initial (.inspected key)).current
        = some { t with inspected := t.inspected ++ [key] } := by
      show g.current.map _ = _
      rw [hg]
      rfl
    obtain ⟨g', hrun, hticks, hcurrent⟩ := ih hrest hnext
    refine ⟨g', ?_, hticks, ?_⟩
    · rw [length_cons, Nat.mul_add, Nat.add_comm, replicate_add, runWith_append,
        pass_blocked hk]
      exact hrun
    · rw [hcurrent, append_assoc]
      rfl

theorem tick_blocked (n : Nat) :
    ∃ g', runWith schedulerStep SchedulerLog.watch (sixWaiters n .check, g)
        (List.replicate 23 blockedStep) = (sixWaiters ((n + 4) % 2 ^ 64) .check, g') ∧
      g'.ticks = g.ticks ++ [sixTick n] := by
  have hgroups : ∀ grp ∈ sixGroups, ∃ k < 6, grp.2 = [k] := by decide
  have hqueue : ∀ grp ∈ window sixGroups n 4, ∃ k < 6, grp.2 = [k] :=
    fun grp hgrp => hgroups grp (window_subset hgrp)
  obtain ⟨g', hrun, hticks, hcurrent⟩ := inspect_blocked hqueue ((n + 4) % 2 ^ 64)
    (g := { g with current := some ⟨n, sixKeys, []⟩ }) rfl
  have hlength : (window sixGroups n 4).length = 4 := length_window (by decide) n 4
  have hend : runWith schedulerStep SchedulerLog.watch
      (sixWaiters ((n + 4) % 2 ^ 64) (.inspect []), g') [blockedStep, blockedStep]
      = (sixWaiters ((n + 4) % 2 ^ 64) .check, g'.watch .initial .ended) := rfl
  rw [hlength] at hrun
  refine ⟨g'.watch .initial .ended, ?_, ?_⟩
  · -- 集める手、選ぶ手、四つの group、終わりの手
    rw [show List.replicate 23 blockedStep = List.replicate 8 blockedStep ++ ([blockedStep] ++
      (List.replicate 12 blockedStep ++ [blockedStep, blockedStep])) from rfl, runWith_append,
      collect_six, runWith_append, plan_six, runWith_append, hrun, hend]
  · show g'.ticks ++ g'.current.toList = _
    rw [hticks, hcurrent, window_map]
    rfl

theorem ticks_blocked (m : Nat) :
    ∃ g', runWith schedulerStep SchedulerLog.watch (sixWaiters 0 .check, ⟨[], none, []⟩)
        (List.replicate (23 * m) blockedStep) = (sixWaiters (4 * m % 2 ^ 64) .check, g') ∧
      g'.ticks = (List.range m).map fun j => sixTick (4 * j % 2 ^ 64) := by
  induction m with
  | zero => exact ⟨_, rfl, rfl⟩
  | succ m ih =>
    obtain ⟨g, hrun, hticks⟩ := ih
    obtain ⟨g', hrun', hticks'⟩ := tick_blocked (4 * m % 2 ^ 64) (g := g)
    refine ⟨g', ?_, ?_⟩
    · rw [Nat.mul_add, Nat.mul_one, replicate_add, runWith_append, hrun, hrun',
        Nat.mod_add_mod, Nat.mul_add]
    · rw [hticks', hticks, range_succ, map_append]
      rfl

theorem exists_ticks (m : Nat) : ∃ evs, (schedulerRun evs).2.ticks
    = ((List.range m).map fun j => sixTick (4 * j % 2 ^ 64))
      ++ [sixTick (4 * m % 2 ^ 64), sixTick (4 * (m + 1) % 2 ^ 64)] := by
  obtain ⟨g, hrun, hticks⟩ := ticks_blocked (m + 2)
  have hregister : runWith schedulerStep SchedulerLog.watch (.initial, ⟨[], none, []⟩) registerSix
      = (sixWaiters 0 .check, ⟨[], none, []⟩) := rfl
  refine ⟨registerSix ++ List.replicate (23 * (m + 2)) blockedStep, ?_⟩
  rw [schedulerRun, runWith_append, hregister, hrun, hticks, range_succ, range_succ,
    map_append, map_append, append_assoc]
  rfl

/-! ## 全体 -/

def Scheduler.liveCoordinators (S : Scheduler) : Nat := (S.coordinators.filter (·.live)).length

theorem SchedulerInv.liveCoordinators {pc : CoordinatorPc}
    (h : SchedulerInv S g (some pc)) : S.liveCoordinators = 1 := by
  obtain ⟨n, hn⟩ := h.lone
  rw [Scheduler.liveCoordinators, hn, filter_append, filter_replicate, if_neg nofun,
    nil_append, Option.toList_some, filter_cons_of_pos (h.live pc rfl), filter_nil]
  rfl

theorem SchedulerInv.chain (h : SchedulerInv S g cur) : ∃ m, Chain 0 g.ticks m := by
  have hpc := h.pc
  generalize cur.getD .exited = pc at hpc
  cases pc with
  | check | probe | sleep | exited => exact ⟨_, hpc.2⟩
  | collect todo groups => exact ⟨_, hpc.1.2⟩
  | inspect queue =>
    obtain ⟨t, ht⟩ := hpc
    exact ⟨_, ht.chain⟩
  | pass p queue | load id error p queue | exchange id error p queue =>
    obtain ⟨⟨t, ht⟩, -⟩ := hpc
    exact ⟨_, ht.chain⟩

/--
登録、取り外し、取り消しと調整役がどう交互に進んでも、

* 待つ要求があれば、動いているか submit された調整役はちょうど一つである
* どの waiter の baton も高々一回しか post されない
* 一つの group で error 0 で起こした waiter は互いに両立する
* group の集合が変わらなければ、続いた `⌈G/4⌉` 回の tick はどの group も調べる。ただし、その間に
  `next_group_` が一周しないか、`G` が `2 ^ 64` を割り切るものとする
-/
theorem retry_scheduler_sound (evs : List SchedulerEvent) :
    ((schedulerRun evs).1.waiters ≠ [] → (schedulerRun evs).1.liveCoordinators = 1) ∧
    (∀ id, ((schedulerRun evs).1.cells id).posts ≤ 1) ∧
    (∀ pass ∈ (schedulerRun evs).2.passes, pass.Pairwise Compat) ∧
    ∀ (front ts back : List Tick) (gs : Finset GroupKey),
      (schedulerRun evs).2.ticks = front ++ ts ++ back →
      (∀ t ∈ ts, t.groups.toFinset = gs) → ts.length = (gs.card + 3) / 4 →
      (gs.card ∣ 2 ^ 64 ∨ ts.Pairwise fun a b => a.start ≤ b.start) →
      ∀ key ∈ gs, ∃ t ∈ ts, key ∈ t.inspected := by
  obtain ⟨cur, h⟩ := SchedulerInv.run evs
  refine ⟨?_, ?_, h.passes, ?_⟩
  · intro hne
    have hsome := h.running.symm.trans (h.served hne)
    obtain ⟨pc, rfl⟩ := Option.isSome_iff_exists.mp hsome
    exact h.liveCoordinators
  · intro id
    rw [h.posts id]
    split <;> decide
  · intro front ts back gs hticks hgs hlen hwrap key hkey
    obtain ⟨m, hchain⟩ := h.chain
    have hdone := h.ticks
    rw [hticks, append_assoc] at hchain hdone
    obtain ⟨n, hn, hsuffix⟩ := hchain.suffix (Nat.two_pow_pos 64)
    obtain ⟨k, hts⟩ := hsuffix.front
    have hmem : ∀ t ∈ ts, t ∈ front ++ (ts ++ back) := fun t ht =>
      mem_append_right _ (mem_append_left _ ht)
    exact ticks_cover hts hn (fun t ht => hdone t (hmem t ht)) hgs hlen hwrap hkey

theorem retry_scheduler_sound_six :
    (schedulerRun (registerSix ++ List.replicate 46 blockedStep)).1.liveCoordinators = 1 ∧
      ∃ t ∈ [sixTick 0, sixTick 4], toLex (6, false) ∈ t.inspected := by
  have h := retry_scheduler_sound (registerSix ++ List.replicate 46 blockedStep)
  refine ⟨h.1 (by decide), h.2.2.2 [] [sixTick 0, sixTick 4] [] sixKeys.toFinset rfl ?_ (by decide)
    (.inr (by decide)) _ (by decide)⟩
  intro t ht
  rcases mem_cons.mp ht with rfl | ht
  · rfl
  · rw [mem_singleton.mp ht]
    rfl

/--
cursor が一周する所では、続いた二回の tick が六つの group のうち二つを調べない。

始まりが `2 ^ 64 - 4` の tick は前の四つの group を調べ、次の tick は始まりが `0` に戻るので、
また前の四つを調べる。
-/
theorem retry_cursor_wrap_misses :
    ∃ (evs : List SchedulerEvent) (front ts : List Tick) (gs : Finset GroupKey) (key : GroupKey),
      (schedulerRun evs).2.ticks = front ++ ts ∧ (∀ t ∈ ts, t.groups.toFinset = gs) ∧
        gs.card = 6 ∧ ts.length = (gs.card + 3) / 4 ∧ key ∈ gs ∧
          ∀ t ∈ ts, key ∉ t.inspected := by
  obtain ⟨evs, hevs⟩ := exists_ticks (2 ^ 62 - 1)
  refine ⟨evs, _, _, sixKeys.toFinset, toLex (6, false), hevs, ?_, by decide, by decide, by decide,
    ?_⟩
  · intro t ht
    rcases mem_cons.mp ht with rfl | ht
    · rfl
    · rw [mem_singleton.mp ht]
      rfl
  · intro t ht
    rcases mem_cons.mp ht with rfl | ht
    · decide
    · rw [mem_singleton.mp ht]
      decide

end SwordFS.Fuse
