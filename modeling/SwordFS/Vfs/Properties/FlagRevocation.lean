import SwordFS.Vfs.Properties.HandleSteps

/-!
# inode flag の取り消し

`SetInodeFlags(f)` が成功してから次の `SetInodeFlags` が始まるまでを一つの期間とする。

Open は metadata を lock の外で読む。古い写しは、`SetInodeFlags` が metadata に書いてから
`inode_flag_epoch_` を進めるまでの間にだけ手元に入り得て、その後で必ず上書きされる。

metadata の `SetInodeFlags` は、flag を書いたうえで失敗を返すことがある。そのとき手元の flag は前のままで、
次の `SetInodeFlags` は Flush を省き得る（`stale_flags_skip_flush`）。
-/

namespace SwordFS.Vfs

open Infra Metadata Chunk

/-! ## flag の禁じるもの -/

/-- `f` の下では、`O_APPEND` かどうかが `append` の書き込みは許されない -/
def forbidsWrite (f : InodeFlag) (append : Bool) : Prop :=
  f.immutable = true ∨ f.appendOnly = true ∧ append = false

/-- `f` の下では、`o` で開くことは許されない -/
def forbidsOpen (f : InodeFlag) (o : AccessFlags) : Prop :=
  o.writable = true ∧
    (f.immutable = true ∨ f.appendOnly = true ∧ (o.append = false ∨ o.trunc = true))

theorem not_forbidsWrite (h : checkWritePolicy f append = none) : ¬ forbidsWrite f append := by
  unfold checkWritePolicy at h
  split at h
  · cases h
  · split at h
    · cases h
    · simp_all [forbidsWrite]

theorem not_forbidsOpen (h : checkOpenPolicy f o = none) : ¬ forbidsOpen f o := by
  unfold checkOpenPolicy at h
  split at h
  · cases h
  · split at h
    · cases h
    · rintro ⟨hw, hi | ⟨ha, ho | ho⟩⟩ <;> simp_all

/-! ## 期間 -/

namespace Pc

def setsFlags : Pc → Bool
  | .flagsLock _ => true
  | pc => pc.holdsExclusive

def admitted : Pc → Option Bool
  | .writeLoop _ _ _ append _ | .writeFinish _ _ append _ => some append
  | _ => none

def opening : Pc → Option AccessFlags
  | .openReconcile o _ _ _ | .openTruncate o => some o
  | _ => none

end Pc

/-- いまの期間 -/
structure Regime where
  /-- 最後に成功した `SetInodeFlags` の flag。次の `SetInodeFlags` が始まっていれば無い -/
  flags : Option InodeFlag := none
  /-- 期間の中で始まった Open -/
  opens : List Nat := []

def Regime.watch (g : Regime) (S : System) : HandleLabel → Regime
  | .call (.setInodeFlags _) => {}
  | .call (.open _) => { g with opens := S.threads.length :: g.opens }
  | .call _ => g
  | .ran i (.flagsStore f) _ =>
    if (S.threads.eraseIdx i).any Pc.setsFlags then {} else { flags := some f }
  | .ran .. => g

/-- flag を書いたのに失敗を返した `SetInodeFlags` -/
def LostFlags (t : Taken System HandleLabel Regime) : Prop :=
  match t.label with
  | .ran _ (.flagsCommit _) (.done _) => t.after.inode.metaFlags ≠ t.before.inode.metaFlags
  | _ => False

instance : DecidablePred LostFlags := fun t => by
  unfold LostFlags
  split <;> infer_instance

/-! ## 一動作と flag -/

variable {s s' : SharedInode} {pc pc' : Pc}

theorem Moves.flags (h : Moves l s pc s' pc') :
    (s'.metaFlags = s.metaFlags ∧ s'.inodeFlags = s.inodeFlags ∧
        s'.inodeFlagEpoch = s.inodeFlagEpoch ∧ ∀ f, pc ≠ .flagsStore f) ∨
      (∃ a epoch size flags, pc = .openReconcile a epoch size flags ∧
        s'.metaFlags = s.metaFlags ∧ s'.inodeFlagEpoch = s.inodeFlagEpoch ∧
        s'.inodeFlags = if s.inodeFlagEpoch = epoch then flags else s.inodeFlags) ∨
      (∃ f, pc = .flagsCommit f ∧ (pc' = .flagsStore f ∨ ∃ e, pc' = .done (.failed e)) ∧
        s' = { s with metaFlags := f }) ∨
      ∃ f, pc = .flagsStore f ∧ pc' = .done .ok ∧
        s' = { s with inodeFlags := f, inodeFlagEpoch := s.inodeFlagEpoch + 1 } := by
  cases h
  case abort e ha =>
    refine .inl ⟨rfl, rfl, rfl, ?_⟩
    rintro f rfl
    cases ha
  case refuse => exact .inr (.inl ⟨_, _, _, _, rfl, rfl, rfl, rfl⟩)
  case reconcile => exact .inr (.inl ⟨_, _, _, _, rfl, rfl, rfl, rfl⟩)
  case reconcileTrunc => exact .inr (.inl ⟨_, _, _, _, rfl, rfl, rfl, rfl⟩)
  case flagsCommit f => exact .inr (.inr (.inl ⟨f, rfl, .inl rfl, rfl⟩))
  case flagsLost f e => exact .inr (.inr (.inl ⟨f, rfl, .inr ⟨e, rfl⟩, rfl⟩))
  case flagsStore f => exact .inr (.inr (.inr ⟨f, rfl, rfl, rfl⟩))
  case writeFinish fd stop append nonempty =>
    cases nonempty <;> exact .inl ⟨rfl, rfl, rfl, nofun⟩
  all_goals exact .inl ⟨rfl, rfl, rfl, fun _ hpc => Pc.noConfusion hpc⟩

/-- chunk に触るのは、`operation_mutex_` を持つものか、誰も排他で持たないときの切り詰め -/
theorem Moves.chunks (h : Moves l s pc s' pc') :
    s'.chunks = s.chunks ∨ pc.holdsShared = true ∨ pc.holdsExclusive = true ∨
      l.exclusive = false := by
  cases h
  case acceptPart => exact .inr (.inl rfl)
  case truncate hs he => exact .inr (.inr (.inr he))
  case freeze k _ _ _ _ _ _ _ =>
    cases k
    · exact .inr (.inl rfl)
    · exact .inr (.inr (.inl rfl))
  case publish k _ _ _ _ _ _ _ =>
    cases k
    · exact .inr (.inl rfl)
    · exact .inr (.inr (.inl rfl))
  case writeFinish fd stop append nonempty => cases nonempty <;> exact .inl rfl
  all_goals exact .inl rfl

theorem Moves.setsFlags (h : Moves l s pc s' pc') (hpc : pc.setsFlags = false) :
    pc'.setsFlags = false := by
  cases h
  case flushUnsafe k e => rcases k with ⟨_, _ | _⟩ | f <;> rfl
  case flushed k b => rcases k with ⟨_, _ | _⟩ | f <;> first | rfl | cases hpc
  case flushFailed k b e => rcases k with ⟨_, _ | _⟩ | f <;> rfl
  all_goals first | rfl | exact hpc

/-! ## Flush し終えた chunk -/

def SharedInode.Drained (s : SharedInode) : Prop :=
  ∀ idx, (s.chunk idx).hasPendingWrites = false

/-- 公開していない書き込みは、これから凍らせる chunk か、凍らせ終えた途中の chunk にある -/
def SharedInode.Draining (s : SharedInode) (todo inFlight : List Nat) : Prop :=
  ∀ idx, (s.chunk idx).hasPendingWrites = true →
    idx ∈ todo ∨ idx ∈ inFlight ∧ (s.chunk idx).active = none

namespace SharedInode

variable {s : SharedInode} {todo inFlight : List Nat} {n idx : Nat}

theorem drained_of_draining (h : s.Draining [] []) : s.Drained := by
  intro idx
  by_contra hp
  rcases h idx (by simpa using hp) with h | ⟨h, -⟩ <;> cases h

theorem draining_pendingWrites : s.Draining s.pendingWrites [] :=
  fun _ hp => .inl (mem_pendingWrites hp)

theorem Draining.freeze (h : s.Draining todo inFlight) (hn : todo[n]? = some idx) :
    (s.setChunk idx (s.chunk idx).freeze).Draining (todo.eraseIdx n) (idx :: inFlight) := by
  intro j hp
  by_cases he : j = idx
  · subst he
    rw [chunk_setChunk_self]
    exact .inr ⟨List.mem_cons_self, ChunkTail.active_freeze _⟩
  · rw [chunk_setChunk_ne he] at hp ⊢
    exact (h j hp).imp (fun hj => mem_eraseIdx_of_ne hn hj he)
      fun hj => ⟨List.mem_cons_of_mem _ hj.1, hj.2⟩

theorem Draining.publish (h : s.Draining todo inFlight) (hn : inFlight[n]? = some idx) :
    (s.publishChunk idx).Draining todo (inFlight.eraseIdx n) := by
  intro j hp
  by_cases he : j = idx
  · subst he
    have hself : (s.publishChunk j).chunk j = { s.chunk j with frozen := none } :=
      chunk_setChunk_self
    rw [hself] at hp
    rcases h j (by simp_all [ChunkTail.hasPendingWrites]) with hj | ⟨-, ha⟩
    · exact .inl hj
    · simp [ChunkTail.hasPendingWrites, ha] at hp
  · have hother : (s.publishChunk idx).chunk j = s.chunk j := chunk_setChunk_ne he
    rw [hother] at hp ⊢
    exact (h j hp).imp_right fun hj => ⟨mem_eraseIdx_of_ne hn hj.1 he, hj.2⟩

end SharedInode

/-! ## 不変条件 -/

/-- metadata に flag を書き、手元にはまだ反映していない thread がいる -/
def System.Storing (S : System) : Prop := ∃ (i : Nat) (f : InodeFlag),
  S.threads[i]? = some (.flagsStore f)

/-- thread ごとの条件。`clean` は、flag を書いて失敗を返した `SetInodeFlags` が無いこと -/
structure FlagsLocal (clean : Prop) (S : System) (pc : Pc) : Prop where
  /-- Open の控えた epoch は、いまの epoch を越えない -/
  epoch : ∀ a e, pc = .openMeta a e → e ≤ S.inode.inodeFlagEpoch
  /-- epoch が変わっていなければ、Open の写しは metadata の flag -/
  sample : ∀ a e size flags, pc = .openReconcile a e size flags → e ≤ S.inode.inodeFlagEpoch ∧
    (clean → e = S.inode.inodeFlagEpoch → flags = S.inode.metaFlags ∨ S.Storing)
  stored : ∀ f, pc = .flagsStore f → S.inode.metaFlags = f
  /-- 制限を加える変更の前に、書き込みはすべて公開されている -/
  drained : ∀ f, pc = .flagsCommit f → clean →
    f = {} ∨ f = S.inode.metaFlags ∨ S.inode.Drained
  draining : ∀ f b todo inFlight, pc = .flushChunks (.setInodeFlags f) b todo inFlight none →
    S.inode.Draining todo inFlight

/-- 期間の条件 -/
structure RegimeInv (S : System) (opens : List Nat) (f : InodeFlag) : Prop where
  inodeFlags : S.inode.inodeFlags = f
  metaFlags : S.inode.metaFlags = f
  /-- 期間の中の epoch を控えた Open の写しは `f` -/
  samples : S.AllThreads fun _ pc => ∀ a size flags,
    pc = .openReconcile a S.inode.inodeFlagEpoch size flags → flags = f
  idle : S.AllThreads fun _ pc => pc.setsFlags = false
  admitted : S.AllThreads fun _ pc => ∀ append, pc.admitted = some append → ¬ forbidsWrite f append
  truncating : S.AllThreads fun i pc => ∀ a, i ∈ opens → pc = .openTruncate a → ¬ forbidsOpen f a

structure FlagsInv (clean : Prop) (S : System) (g : Regime) : Prop where
  exclusion : S.Exclusion
  synced : clean →
    S.inode.inodeFlags = {} ∨ S.inode.inodeFlags = S.inode.metaFlags ∨ S.Storing
  threads : S.AllThreads fun _ pc => FlagsLocal clean S pc
  regime : ∀ f, g.flags = some f → RegimeInv S g.opens f

variable {clean : Prop}

namespace FlagsLocal

variable {S S' : System} {pc : Pc}

theorem transport (h : FlagsLocal clean S pc) (hmeta : S'.inode.metaFlags = S.inode.metaFlags)
    (hepoch : S'.inode.inodeFlagEpoch = S.inode.inodeFlagEpoch) (hstoring : S.Storing → S'.Storing)
    (hchunks : pc.holdsExclusive = true → S'.inode.chunks = S.inode.chunks) :
    FlagsLocal clean S' pc where
  epoch := by rw [hepoch]; exact h.epoch
  sample a e size flags hpc := by
    rw [hepoch, hmeta]
    exact (h.sample a e size flags hpc).imp_right fun hs hcl he => (hs hcl he).imp_right hstoring
  stored := by rw [hmeta]; exact h.stored
  drained f hpc := by
    subst hpc
    have hc : S'.inode.Drained ↔ S.inode.Drained := by
      simp only [SharedInode.Drained, SharedInode.chunk, hchunks rfl]
    rw [hmeta, hc]
    exact h.drained f rfl
  draining f b todo inFlight hpc := by
    subst hpc
    have hc : S'.inode.Draining todo inFlight ↔ S.inode.Draining todo inFlight := by
      simp only [SharedInode.Draining, SharedInode.chunk, hchunks rfl]
    exact hc.mpr (h.draining f b todo inFlight rfl)

/-- 排他の lock を持たない thread の条件は、Open の写しについてのものだけ -/
theorem of_shared (hfree : pc.holdsExclusive = false)
    (hepoch : ∀ a e, pc = .openMeta a e → e ≤ S.inode.inodeFlagEpoch)
    (hsample : ∀ a e size flags, pc = .openReconcile a e size flags →
      e ≤ S.inode.inodeFlagEpoch ∧
        (clean → e = S.inode.inodeFlagEpoch → flags = S.inode.metaFlags ∨ S.Storing)) :
    FlagsLocal clean S pc where
  epoch := hepoch
  sample := hsample
  stored := by rintro f rfl; cases hfree
  drained := by rintro f rfl; cases hfree
  draining := by rintro f b todo inFlight rfl; cases hfree

def tracked : Pc → Bool
  | .openMeta .. | .openReconcile .. | .flagsStore _ | .flagsCommit _ | .flushChunks .. => true
  | _ => false

theorem of_untracked (h : tracked pc = false) : FlagsLocal clean S pc where
  epoch := by rintro a e rfl; cases h
  sample := by rintro a e size flags rfl; cases h
  stored := by rintro f rfl; cases h
  drained := by rintro f rfl; cases h
  draining := by rintro f b todo inFlight rfl; cases h

theorem entry (c : Call) : FlagsLocal clean S c.entry := of_untracked (by cases c <;> rfl)

end FlagsLocal

theorem System.Storing.start {S : System} (h : S.Storing) (c : Call) : (S.start c).Storing := by
  obtain ⟨i, f, hi⟩ := h
  refine ⟨i, f, ?_⟩
  show (S.threads ++ [c.entry])[i]? = _
  rw [List.getElem?_append_left (List.getElem?_eq_some_iff.mp hi).1]
  exact hi

theorem System.Storing.advance {S : System} (h : S.Storing) (hi : S.threads[i]? = some pc)
    (hpc : ∀ f, pc ≠ .flagsStore f) : (S.advance i s pc pc').Storing := by
  obtain ⟨j, f, hj⟩ := h
  have hne : i ≠ j := by
    rintro rfl
    exact hpc f (Option.some.inj (hi.symm.trans hj))
  refine ⟨j, f, ?_⟩
  show (S.threads.set i pc')[j]? = _
  rw [List.getElem?_set_ne hne]
  exact hj

theorem System.storing_advance {S : System}
    (hi : S.threads[i]? = some pc) : (S.advance i s pc (.flagsStore f)).Storing :=
  ⟨i, f, by simp [System.advance, (List.getElem?_eq_some_iff.mp hi).1]⟩

theorem FlagsInv.start {S : System} (h : FlagsInv clean S g) (c : Call) :
    FlagsInv clean (S.start c) (g.watch S (.call c)) where
  exclusion := h.exclusion.start c
  synced hcl := (h.synced hcl).imp_right fun hs => hs.imp_right fun hs => hs.start c
  threads := System.AllThreads.start h.threads c
    (fun _ _ _ hpc => hpc.transport rfl rfl (fun hs => hs.start c) fun _ => rfl) (.entry c)
  regime := by
    intro f hf
    cases c with
    | setInodeFlags f' => cases hf
    | _ =>
      have hr := h.regime f hf
      refine ⟨hr.inodeFlags, hr.metaFlags, ?_, ?_, ?_, ?_⟩
      · exact System.AllThreads.start hr.samples _ (fun _ _ _ hpc => hpc) nofun
      · exact System.AllThreads.start hr.idle _ (fun _ _ _ hpc => hpc) rfl
      · exact System.AllThreads.start hr.admitted _ (fun _ _ _ hpc => hpc) nofun
      · refine System.AllThreads.start hr.truncating _ (fun i pc hi hpc a ha => hpc a ?_) nofun
        have hlt := (List.getElem?_eq_some_iff.mp hi).1
        first
          | exact ha
          | exact (List.mem_cons.mp ha).resolve_left hlt.ne

section

variable {S : System} {g : Regime} {i : Nat} {s : SharedInode} {pc pc' : Pc}

section

variable (h : FlagsInv clean S g) (hi : S.threads[i]? = some pc)
  (hm : Moves (S.locks i) S.inode pc s pc')
  (hlost : clean → ¬ LostFlags ⟨S, g, .ran i pc pc', S.advance i s pc pc'⟩)
include h hi hm

theorem FlagsInv.moved : FlagsLocal clean (S.advance i s pc pc') pc' := by
  have hpc := h.threads i pc hi
  cases hm
  case snapshot a => exact .of_shared rfl (fun _ _ he => by cases he; exact le_rfl) nofun
  case sample a e =>
    refine .of_shared rfl nofun fun _ _ _ _ he => ?_
    cases he
    exact ⟨hpc.epoch a e rfl, fun _ _ => .inl rfl⟩
  case flagsSkip f hf =>
    refine ⟨nofun, nofun, nofun, fun _ he hcl => ?_, nofun⟩
    cases he
    rcases hf with rfl | hf
    · -- flag を書き終えていない thread は、排他の lock を持つこの thread のほかにいない
      rcases h.synced hcl with he | he | ⟨j, f, hj⟩
      · exact .inl he
      · exact .inr (.inl he)
      · have hne : i ≠ j := by
          rintro rfl
          cases hi.symm.trans hj
        cases ((h.exclusion i _ hi j _ hj hne).exclusive rfl).1
    · exact .inl hf
  case flagsCommit f => exact ⟨nofun, nofun, fun _ he => by cases he; rfl, nofun, nofun⟩
  case flushed k b =>
    rcases k with ⟨fd, _ | _⟩ | f
    · exact .of_untracked rfl
    · exact .of_untracked rfl
    · refine ⟨nofun, nofun, nofun, fun _ he _ => .inr (.inr ?_), nofun⟩
      exact SharedInode.drained_of_draining (hpc.draining f b [] [] rfl)
  case flushUnsafe k e =>
    rcases k with ⟨fd, _ | _⟩ | f <;> exact .of_untracked rfl
  case flushFailed k b e =>
    rcases k with ⟨fd, _ | _⟩ | f <;> exact .of_untracked rfl
  case pending k b =>
    refine ⟨nofun, nofun, nofun, nofun, fun _ _ _ _ he => ?_⟩
    cases he
    exact SharedInode.draining_pendingWrites
  case freeze k b todo inFlight error n idx hn =>
    refine ⟨nofun, nofun, nofun, nofun, fun _ _ _ _ he => ?_⟩
    cases he
    exact (hpc.draining _ _ _ _ rfl).freeze hn
  case publishPart k b todo inFlight error idx stop =>
    refine ⟨nofun, nofun, nofun, nofun, fun _ _ _ _ he => ?_⟩
    cases he
    exact hpc.draining _ _ _ _ rfl
  case publish k b todo inFlight error n idx hn =>
    refine ⟨nofun, nofun, nofun, nofun, fun _ _ _ _ he => ?_⟩
    cases he
    exact (hpc.draining _ _ _ _ rfl).publish hn
  case chunkFailed k b todo inFlight error n e =>
    refine ⟨nofun, nofun, nofun, nofun, fun _ _ _ _ he => ?_⟩
    cases error <;> cases he
  all_goals exact .of_untracked rfl

include hlost

theorem FlagsInv.others {j : Nat} (hji : j ≠ i) (hj : S.threads[j]? = some q) :
    FlagsLocal clean (S.advance i s pc pc') q := by
  have hq := h.threads j q hj
  have hcompat := h.exclusion j q hj i pc hi hji
  -- 排他の lock を持つ thread の見ている chunk は変わらない
  have hchunks : q.holdsExclusive = true → s.chunks = S.inode.chunks := by
    intro hex
    rcases hm.chunks with hc | hc | hc | hc
    · exact hc
    · simp [(hcompat.exclusive hex).2] at hc
    · simp [(hcompat.exclusive hex).1] at hc
    · simp [(System.locks_free hji hj).2.1 hc] at hex
  rcases hm.flags with ⟨hmeta, -, hepoch, hne⟩ | ⟨a, e, size, flags, rfl, hmeta, hepoch, -⟩ |
    ⟨f, rfl, hnext, rfl⟩ | ⟨f, rfl, rfl, rfl⟩
  · exact hq.transport hmeta hepoch (fun hs => hs.advance hi hne) hchunks
  · exact hq.transport hmeta hepoch (fun hs => hs.advance hi nofun) hchunks
  · refine .of_shared (hcompat.symm.exclusive rfl).1 hq.epoch fun a e size flags he => ?_
    refine ⟨(hq.sample a e size flags he).1, fun hcl hlast => ?_⟩
    rcases hnext with rfl | ⟨e', rfl⟩
    · exact .inr (System.storing_advance hi)
    · -- 書いた flag は前と同じで、写しはそのまま使える
      have hsame : f = S.inode.metaFlags := not_not.mp (hlost hcl)
      exact ((hq.sample a e size flags he).2 hcl hlast).imp (fun hs => hs.trans hsame.symm)
        fun hs => hs.advance hi nofun
  · refine .of_shared (hcompat.symm.exclusive rfl).1
      (fun a e he => (hq.epoch a e he).trans (Nat.le_succ _)) fun a e size flags he => ?_
    have hle := (hq.sample a e size flags he).1
    exact ⟨hle.trans (Nat.le_succ _), fun _ hlast => absurd (hlast ▸ hle) (Nat.not_succ_le_self _)⟩

theorem FlagsInv.synced_advance (hcl : clean) :
    s.inodeFlags = {} ∨ s.inodeFlags = s.metaFlags ∨ (S.advance i s pc pc').Storing := by
  have hsynced := h.synced hcl
  rcases hm.flags with ⟨hmeta, hflags, -, hne⟩ | ⟨a, e, size, flags, rfl, hmeta, -, hflags⟩ |
    ⟨f, rfl, hnext, rfl⟩ | ⟨f, rfl, rfl, rfl⟩
  · rw [hmeta, hflags]
    exact hsynced.imp_right fun hs => hs.imp_right fun hs => hs.advance hi hne
  · rw [hmeta, hflags]
    split
    next he =>
      exact .inr (((h.threads i _ hi).sample a e size flags rfl).2 hcl he.symm |>.imp_right
        fun hs => hs.advance hi nofun)
    next => exact hsynced.imp_right fun hs => hs.imp_right fun hs => hs.advance hi nofun
  · rcases hnext with rfl | ⟨e, rfl⟩
    · exact .inr (.inr (System.storing_advance hi))
    · have hsame : f = S.inode.metaFlags := not_not.mp (hlost hcl)
      exact hsynced.imp_right fun hs => hs.imp (fun hs => hs.trans hsame.symm)
        fun hs => hs.advance hi nofun
  · exact .inr (.inl ((h.threads i _ hi).stored f rfl).symm)

end

/-- 判定を通った書き込みは、前から通っていたか、いまの flag の下で通ったもの -/
theorem Moves.admitted {s' : SharedInode} (h : Moves l s pc s' pc')
    (ha : pc'.admitted = some append) :
    pc.admitted = some append ∨ checkWritePolicy s.inodeFlags append = none := by
  cases h
  case flushUnsafe k e => rcases k with ⟨_, _ | _⟩ | f <;> cases ha
  case flushed k b => rcases k with ⟨_, _ | _⟩ | f <;> cases ha
  case flushFailed k b e => rcases k with ⟨_, _ | _⟩ | f <;> cases ha
  case admitWrite hpolicy _ _ =>
    cases ha
    exact .inr hpolicy
  case acceptPart => exact .inl ha
  case accepted => exact .inl ha
  all_goals cases ha

theorem Moves.sampled (h : Moves l s pc s' pc') {flags : InodeFlag}
    (ha : pc' = .openReconcile a e size flags) : flags = s.metaFlags := by
  cases h
  case flushUnsafe k e => rcases k with ⟨_, _ | _⟩ | f <;> cases ha
  case flushed k b => rcases k with ⟨_, _ | _⟩ | f <;> cases ha
  case flushFailed k b e => rcases k with ⟨_, _ | _⟩ | f <;> cases ha
  case sample =>
    cases ha
    rfl
  all_goals cases ha

theorem Moves.truncating (h : Moves l s pc s' pc')
    (ha : pc' = .openTruncate a) : checkOpenPolicy s'.inodeFlags a = none := by
  cases h
  case flushUnsafe k e => rcases k with ⟨_, _ | _⟩ | f <;> cases ha
  case flushed k b => rcases k with ⟨_, _ | _⟩ | f <;> cases ha
  case flushFailed k b e => rcases k with ⟨_, _ | _⟩ | f <;> cases ha
  case reconcileTrunc hpolicy =>
    cases ha
    exact hpolicy
  all_goals cases ha

/-- 成功した Open は、切り詰めを終えたか、いまの flag の判定を通っている -/
theorem Moves.opened (h : Moves l s pc s' pc')
    (ha : pc.opening = some a) (hdone : pc' = .done .ok) :
    pc = .openTruncate a ∨ checkOpenPolicy s'.inodeFlags a = none := by
  unfold Pc.opening at ha
  split at ha
  next =>
    cases ha
    cases h with
    | abort e hab => cases hab
    | refuse => cases hdone
    | reconcile hpolicy => exact .inr hpolicy
    | reconcileTrunc => cases hdone
  next =>
    cases ha
    exact .inl rfl
  next => cases ha

variable {f : InodeFlag}

section

variable (hr : RegimeInv S g.opens f) (hi : S.threads[i]? = some pc)
  (hm : Moves (S.locks i) S.inode pc s pc')
include hr hi hm

/-- 期間の中の一動作は、手元の flag も metadata の flag も epoch も変えない -/
theorem RegimeInv.flags_advance :
    s.inodeFlags = f ∧ s.metaFlags = f ∧ s.inodeFlagEpoch = S.inode.inodeFlagEpoch := by
  have hidle := hr.idle i pc hi
  rcases hm.flags with ⟨hmeta, hflags, hepoch, -⟩ |
    ⟨a, e, size, flags, rfl, hmeta, hepoch, hflags⟩ | ⟨f', rfl, -⟩ | ⟨f', rfl, -⟩
  · exact ⟨hflags.trans hr.inodeFlags, hmeta.trans hr.metaFlags, hepoch⟩
  · refine ⟨?_, hmeta.trans hr.metaFlags, hepoch⟩
    rw [hflags]
    split
    next he =>
      subst he
      exact hr.samples i _ hi a size flags rfl
    next => exact hr.inodeFlags
  · cases hidle
  · cases hidle

theorem RegimeInv.advance : RegimeInv (S.advance i s pc pc') g.opens f := by
  obtain ⟨hflags, hmeta, hepoch⟩ := hr.flags_advance hi hm
  refine ⟨hflags, hmeta, ?_, ?_, ?_, ?_⟩
  · refine System.AllThreads.advance hr.samples (fun _ _ _ _ hq a size flags he => ?_)
      fun a size flags he => (hm.sampled he).trans hr.metaFlags
    rw [System.advance, hepoch] at he
    exact hq a size flags he
  · exact System.AllThreads.advance hr.idle (fun _ _ _ _ hq => hq)
      (hm.setsFlags (hr.idle i pc hi))
  · refine System.AllThreads.advance hr.admitted (fun _ _ _ _ hq => hq) fun append ha => ?_
    rcases hm.admitted ha with hold | hpolicy
    · exact hr.admitted i pc hi append hold
    · exact not_forbidsWrite (hr.inodeFlags ▸ hpolicy)
  · refine System.AllThreads.advance hr.truncating (fun _ _ _ _ hq => hq) fun a _ ha => ?_
    exact not_forbidsOpen (hflags ▸ hm.truncating ha)

end

theorem FlagsInv.opened (h : FlagsInv clean S g) (hi : S.threads[i]? = some (.flagsStore f))
    (hothers : (S.threads.eraseIdx i).any Pc.setsFlags = false) :
    RegimeInv (S.advance i
      { S.inode with inodeFlags := f, inodeFlagEpoch := S.inode.inodeFlagEpoch + 1 }
      (.flagsStore f) (.done .ok)) [] f := by
  have hshared : ∀ j q, j ≠ i → S.threads[j]? = some q → q.holdsShared = false :=
    fun j q hj hq => ((h.exclusion i _ hi j q hq (Ne.symm hj)).exclusive rfl).2
  refine ⟨rfl, (h.threads i _ hi).stored f rfl, ?_, ?_, ?_, ?_⟩
  · refine System.AllThreads.advance h.threads (fun _ _ _ _ hq a size flags he => ?_) nofun
    exact absurd (hq.sample a _ size flags he).1 (Nat.not_succ_le_self _)
  · refine System.AllThreads.advance (P := fun _ _ => True) (fun _ _ _ => trivial)
      (fun j q hj hq _ => ?_) rfl
    simpa using List.any_eq_false.mp hothers q (List.mem_eraseIdx_iff_getElem?.mpr ⟨j, hj, hq⟩)
  · refine System.AllThreads.advance (P := fun _ _ => True) (fun _ _ _ => trivial)
      (fun j q hj hq _ append ha => ?_) nofun
    have hfree := hshared j q hj hq
    unfold Pc.admitted at ha
    split at ha <;> first | cases hfree | cases ha
  · exact fun _ _ _ _ hmem => absurd hmem List.not_mem_nil

theorem FlagsInv.advance (h : FlagsInv clean S g) (hi : S.threads[i]? = some pc)
    (hm : Moves (S.locks i) S.inode pc s pc')
    (hlost : clean → ¬ LostFlags ⟨S, g, .ran i pc pc', S.advance i s pc pc'⟩) :
    FlagsInv clean (S.advance i s pc pc') (g.watch S (.ran i pc pc')) where
  exclusion := h.exclusion.advance hi hm
  synced := h.synced_advance hi hm hlost
  threads := System.AllThreads.advance h.threads (fun _ _ hj hq _ => h.others hi hm hlost hj hq)
    (h.moved hi hm)
  regime := by
    intro f hf
    by_cases hstore : ∃ f', pc = .flagsStore f'
    · obtain ⟨f', rfl⟩ := hstore
      cases hm with
      | abort e ha => cases ha
      | flagsStore =>
        simp only [Regime.watch] at hf ⊢
        split at hf
        next => cases hf
        next hothers =>
          cases hf
          rw [if_neg hothers]
          exact h.opened hi (by simpa using hothers)
    · have hwatch : g.watch S (.ran i pc pc') = g := by
        cases pc <;> first | rfl | exact absurd ⟨_, rfl⟩ hstore
      rw [hwatch] at hf ⊢
      exact (h.regime f hf).advance hi hm

end

theorem FlagsInv.step (hlost : clean → ¬ LostFlags ⟨S, g, label, S'⟩) (h : FlagsInv clean S g)
    (hs : S.step cs ev = some (label, S')) : FlagsInv clean S' (g.watch S label) := by
  rcases System.step_cases hs with ⟨c, -, rfl, -, rfl⟩ | ⟨i, pc, s, pc', rfl, hi, hm, rfl⟩
  · exact h.start c
  · exact h.advance hi hm hlost

theorem FlagsInv.fresh (size : Nat) (flags : InodeFlag) :
    FlagsInv clean (.fresh size flags) {} where
  exclusion := System.allThreads_fresh
  synced _ := .inl rfl
  threads := System.allThreads_fresh
  regime := nofun

/-! ## 取り消し -/

/-- 開いて追記した file の flag を一度消し、その返事を失ってから、もとの flag に戻す -/
def staleHistory : List HandleEvent := List.flatten [
  .call (.open { writable := true, append := true }) :: List.replicate 4 (.run 0 {}),
  .call (.write 0 0 1 true) :: List.replicate 5 (.run 1 {}),
  [.call (.setInodeFlags {}), .run 2 {}, .run 2 {},
    .run 2 { fault := some (.outcomeUnknown "EXEC reply lost"), applied := true }],
  .call (.setInodeFlags { appendOnly := true }) :: List.replicate 4 (.run 3 {})]

/-- 開いて一 byte 書いた file を immutable にし、metadata に書く直前まで進める -/
def revokeHistory : List HandleEvent := List.flatten [
  .call (.open { writable := true }) :: List.replicate 4 (.run 0 {}),
  .call (.write 0 0 1 false) :: List.replicate 5 (.run 1 {}),
  .call (.setInodeFlags { immutable := true }) :: List.replicate 4 (.run 2 {}),
  [.run 2 { move := .freeze 0 }, .run 2 { move := .complete 0 }, .run 2 { move := .finish }]]

end SwordFS.Vfs
