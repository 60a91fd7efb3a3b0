import SwordFS.Metadata.Properties.FileInvariant
import SwordFS.Metadata.Properties.ReclaimExclusion

/-!
# 並行な transaction の直列化

並行な run を、EXEC に成功した操作だけをその順に一つずつ commit する run と比べる。namespace の操作は
`runNamespace` と、一つの file の操作は `FileStep` と比べる。
-/

namespace SwordFS.Metadata

open Infra

/-! ## namespace -/

/-- 並べた順に commit すると、どれも成功する -/
def Succeeds : List NamespaceOp → Redis → Prop
  | [], _ => True
  | op :: ops, s => (op.txn.commit s).1 = .ok () ∧ Succeeds ops (op.txn.commit s).2

namespace NamespaceSystem

variable {ι : Type} [DecidableEq ι] {S : NamespaceSystem ι}

/-- 一歩で EXEC に成功する操作 -/
def commits (S : NamespaceSystem ι) : NamespaceEvent ι → Option NamespaceOp
  | .exec i => (S.cluster.exec? i).bind fun _ => (S.cluster.running i).map Prod.fst
  | _ => none

def committed (S : NamespaceSystem ι) : List (NamespaceEvent ι) → List NamespaceOp
  | [] => []
  | e :: es => (S.commits e).toList ++ (S.step e).committed es

theorem Inv.commits_none (h : S.Inv) (he : S.commits e = none) : (S.step e).store = S.store := by
  rcases h.store_step e with heq | ⟨i, op, a, u, ws, rfl, hrun, -⟩
  · exact heq
  · have hx : S.cluster.exec? i = none := by
      cases hx : S.cluster.exec? i with
      | none => rfl
      | some r => simp [commits, hx, hrun] at he
    simp [NamespaceSystem.store, NamespaceSystem.step, NamespaceSystem.send, Cluster.step, hx]

/-- commit は今の store での原子的な実行で、使った番号は二度と使われない -/
theorem Inv.commits_some (h : S.Inv)
    (he : S.commits e = some op) : op.txn.commit S.store = (.ok (), (S.step e).store) ∧
      ∀ x, op.newIno = some x → ¬ S.Spent x ∧ (S.step e).Spent x := by
  cases e with
  | exec i =>
    obtain ⟨⟨u, ws⟩, hx, hop⟩ := Option.bind_eq_some_iff.mp he
    obtain ⟨op', a, hrun, heval⟩ := h.attempts.exec hx
    obtain rfl : op' = op := by simpa [hrun] using hop
    refine ⟨Txn.commit_ok_iff.mpr ⟨ws, heval, ?_⟩, fun x hnew => ?_⟩
    · simp [NamespaceSystem.store, NamespaceSystem.step, NamespaceSystem.send, Cluster.step, hx]
    · have hres := h.owned i op' a hrun x hnew
      refine ⟨fun hs => hs.2 i hres, (h.unused i x hres).2, fun j hj => ?_⟩
      by_cases hji : j = i
      · simp [NamespaceSystem.step, hx, hji] at hj
      · exact hji (h.distinct j i x (by simpa [NamespaceSystem.step, hx, hji] using hj) hres)
  | _ => cases he

theorem Inv.serial (h : S.Inv) (es : List (NamespaceEvent ι)) :
    Succeeds (S.committed es) S.store ∧ (S.run es).store = runNamespace (S.committed es) S.store ∧
      ((S.committed es).filterMap NamespaceOp.newIno).Nodup ∧
      ∀ x ∈ (S.committed es).filterMap NamespaceOp.newIno, ¬ S.Spent x := by
  induction es generalizing S with
  | nil => exact ⟨trivial, rfl, .nil, by simp [committed]⟩
  | cons e es ih =>
    obtain ⟨hsucc, hrun, hnd, hnew⟩ := ih (h.step e)
    cases hc : S.commits e with
    | none =>
      simp only [committed, hc, Option.toList_none, List.nil_append, ← h.commits_none hc]
      exact ⟨hsucc, hrun, hnd, fun x hx hs => hnew x hx (hs.step e)⟩
    | some op =>
      obtain ⟨hok, hspent⟩ := h.commits_some hc
      have hrest : S.committed (e :: es) = op :: (S.step e).committed es := by
        rw [committed, hc]
        rfl
      rw [hrest]
      have hstore := congrArg (fun r => runNamespace ((S.step e).committed es) r.2) hok
      refine ⟨⟨by rw [hok], by rwa [hok]⟩, hrun.trans hstore.symm, ?_⟩
      cases hi : op.newIno with
      | none =>
        rw [List.filterMap_cons_none hi]
        exact ⟨hnd, fun x hx hs => hnew x hx (hs.step e)⟩
      | some y =>
        obtain ⟨hy, hy'⟩ := hspent y hi
        rw [List.filterMap_cons_some hi]
        refine ⟨List.nodup_cons.mpr ⟨fun hmem => hnew y hmem hy', hnd⟩, fun x hx hs => ?_⟩
        rcases List.mem_cons.mp hx with rfl | hx
        · exact hy hs
        · exact hnew x hx (hs.step e)

end NamespaceSystem

/--
namespace の transaction は直列化できる。

任意個の client のどの run の store も、EXEC に成功した操作をその順に一つずつ commit した store に等しい。
そのどの操作も順番が来れば成功し、二つの操作が同じ inode 番号を作ることはなく、store は整合している。
-/
theorem namespace_serializable {ι : Type} [DecidableEq ι] (now : Int) (uid gid : Nat)
    (es : List (NamespaceEvent ι)) :
    let S := NamespaceSystem.formatted ι now uid gid
    (S.run es).store = runNamespace (S.committed es) (formattedStore now uid gid) ∧
      Succeeds (S.committed es) (formattedStore now uid gid) ∧ FreshInodes (S.committed es) ∧
      NamespaceWf (S.run es).store := by
  intro S
  have hinv : S.Inv := NamespaceSystem.inv_formatted now uid gid
  obtain ⟨hsucc, hrun, hnd, hnew⟩ := hinv.serial es
  exact ⟨hrun, hsucc, ⟨hnd, fun hroot => hnew _ hroot ⟨Nat.le_refl _, by nofun⟩⟩,
    (hinv.run es).ok.wf⟩

/-! ## file の mapping と EOF -/

variable {ι : Type} [DecidableEq ι]

/-- 時刻つきの呼び出しの transaction -/
def fileTxn (cx : MetaContext) (ino : InodeID) (op : Int × FileOp) : KvTxn FileReply :=
  op.2.txn { cx with now := op.1 } ino

section

variable {cx : MetaContext} {ino : InodeID} {c : Cluster ι (Int × FileOp) Key Val Status FileReply}
  (hok : c.Ok (fileTxn cx ino)) (hinv : FileInv cx.chunkSize ino c.server.store)
include hok hinv

theorem fileStep_exec (he : c.exec? i = some (q, ws)) :
    ∃ op a, c.running i = some (op, a) ∧
      FileStep cx.chunkSize cx.chunkType ino op.2 c.server.store (.ok q)
        (c.step (fileTxn cx ino) (.exec i)).server.store ∧
      FileInv cx.chunkSize ino (c.step (fileTxn cx ino) (.exec i)).server.store := by
  obtain ⟨op, a, hrun, heval⟩ := hok.exec he
  have hstore : (c.step (fileTxn cx ino) (.exec i)).server.store
      = Cmd.applyAll ws c.server.store := by simp [Cluster.step, he]
  have hstep : op.2.step { cx with now := op.1 } ino c.server.store
      = (.ok q, (c.step (fileTxn cx ino) (.exec i)).server.store) :=
    Txn.commit_ok_iff.mpr ⟨ws, heval, hstore⟩
  have h := fileOp_step { cx with now := op.1 } op.2 hinv
  rw [hstep] at h
  exact ⟨op, a, hrun, h⟩

theorem fileInv_step (hc : e.client ≠ none) :
    FileInv cx.chunkSize ino (c.step (fileTxn cx ino) e).server.store := by
  cases e with
  | exec i =>
    cases he : c.exec? i with
    | none => simpa [Cluster.step, he] using hinv
    | some r =>
      obtain ⟨op, a, -, -, h⟩ := fileStep_exec hok hinv he
      exact h
  | command cs => exact absurd rfl hc
  | _ => exact hinv

theorem fileInv_run (hes : ∀ e ∈ es, e.client ≠ none) :
    FileInv cx.chunkSize ino (c.run (fileTxn cx ino) es).server.store := by
  induction es generalizing c with
  | nil => exact hinv
  | cons e es ih =>
    obtain ⟨he, hes⟩ := List.forall_mem_cons.mp hes
    exact ih (hok.step e) (fileInv_step hok hinv he) hes

end

/--
任意個の client が一つの file の呼び出しを WATCH、読み、EXEC に分けて進めても、mapping と EOF の
不変条件はどの時点でも成り立ち、成功する EXEC はその時点の store に対して `FileStep` の通りに振る舞う。

前提の検査は EXEC より前の読みで行われるが、EXEC の時点の前提もそれと同じである。
-/
theorem file_mapping_concurrent (cx : MetaContext) (ino : InodeID) {s : Redis}
    (hinv : FileInv cx.chunkSize ino s) (es : List (Event ι (Int × FileOp) Key Val))
    (hes : ∀ e ∈ es, e.client ≠ none) :
    let c := (Cluster.idle ⟨s, fun _ => 0⟩).run (fileTxn cx ino) es
    FileInv cx.chunkSize ino c.server.store ∧ ∀ i q ws, c.exec? i = some (q, ws) →
      ∃ op a, c.running i = some (op, a) ∧ ¬ op.2.Stale cx.chunkSize ino c.server.store ∧
        FileStep cx.chunkSize cx.chunkType ino op.2 c.server.store (.ok q)
          (c.step (fileTxn cx ino) (.exec i)).server.store := by
  intro c
  have hok := Cluster.ok_idle (ι := ι) (fileTxn cx ino) ⟨s, fun _ => 0⟩
  have hc := fileInv_run hok hinv hes
  refine ⟨hc, fun i q ws he => ?_⟩
  obtain ⟨op, a, hi, hstep, -⟩ := fileStep_exec (hok.run es) hc he
  refine ⟨op, a, hi, fun hstale => ?_, hstep⟩
  obtain ⟨e, he⟩ := hstep.stale hstale
  cases he

/-- 二つの client が同じ位置への取り付けを読み終えてから、順に EXEC を送る -/
def racingAttach : List (Event Bool (Int × FileOp) Key Val) :=
  let attach (i : Bool) (id : ChunkID) : List (Event Bool (Int × FileOp) Key Val) :=
    [.start i (0, .attachPrepared 2 id 10 ⟨0, none⟩), .watch i (.inode 2), .watch i (.chunkRefs 2),
      .get i, .get i]
  attach true 7 ++ attach false 8 ++ [.exec true, .exec false]

theorem file_mapping_concurrent_race :
    let c := (Cluster.idle ⟨emptyFileStore 2, fun _ => 0⟩).run (fileTxn ⟨4, .cow, 0⟩ 2) racingAttach
    attachedAt c.server.store 2 2 = some 7 ∧ FileInv 4 2 c.server.store :=
  ⟨by decide, (file_mapping_concurrent ⟨4, .cow, 0⟩ 2 (fileInv_emptyFileStore (by decide))
    racingAttach (by decide)).1⟩

end SwordFS.Metadata
