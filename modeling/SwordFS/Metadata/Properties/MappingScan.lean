import SwordFS.Metadata.Redis.MappingScan
import SwordFS.Metadata.Properties.FileTxn

/-!
# 頁ごとの読みと HSCAN の約束

HSCAN は、走査の間に変わらない hash のどの field も少なくとも一度返すが、同じ field を二度返すことを
妨げない。`ReadFileMappingSnapshot` は集めた要素を重複の検査に掛けるので、field が一度ずつ返されたとき
に限って成功する。
-/

namespace SwordFS.Metadata

open List Infra

/-! ## 応答の列 -/

/-- 成功した応答の列から、返された要素を順に並べたもの -/
def scanned (pages : List (List (String × String) × Nat)) : List (String × String) :=
  pages.flatMap Prod.fst

def storedPair (m : ChunkMapping) : String × String := (toString m.index, toString m.chunkId)

/-- 変わらない chunk_refs に対して HSCAN が返しうる頁の列 -/
structure LegalScan (s : Redis) (ino : InodeID) (pages : List (List (String × String) × Nat)) :
    Prop where
  /-- cursor 0 で終わり、途中では 0 にならない -/
  cursors : ∃ front last, pages = front ++ [last] ∧ last.2 = 0 ∧ ∀ p ∈ front, p.2 ≠ 0
  /-- 返される要素は hash のもの -/
  sound : ∀ x ∈ scanned pages, ∃ m, attachedAt s ino m.index = some m.chunkId ∧ x = storedPair m
  /-- どの要素も少なくとも一度返される -/
  complete : ∀ m : ChunkMapping, attachedAt s ino m.index = some m.chunkId →
    storedPair m ∈ scanned pages

/-- 読める regular file。番号と ChunkID は保存できる範囲にある -/
structure StoredFile (s : Redis) (ino : InodeID) (inode : SwordFsInode) : Prop where
  stored : s (.inode ino) = some inode
  ino_ne : inode.ino ≠ 0
  regular : inode.isRegular = true
  valid : ∀ {i id}, attachedAt s ino i = some id → i < 2 ^ 64 ∧ isValidChunkID id = true

/-! ## 頁の復号 -/

theorem storedPair_injective : Function.Injective storedPair := by
  rintro ⟨i, a⟩ ⟨j, b⟩ h
  obtain ⟨hi, ha⟩ := Prod.mk.inj h
  have hij : i = j := decimal_injective (by rw [← toList_toString, hi, toList_toString])
  have hab : a = b := decimal_injective (by rw [← toList_toString, ha, toList_toString])
  rw [hij, hab]

variable {ms : List ChunkMapping}

theorem decodePage_map (h : ∀ m ∈ ms, m.index < 2 ^ 64 ∧ isValidChunkID m.chunkId = true) :
    decodePage (ms.map storedPair) = .ok ms := by
  induction ms with
  | nil => rfl
  | cons m ms ih =>
    obtain ⟨hindex, hid⟩ := h m mem_cons_self
    have hlimit : m.chunkId < 2 ^ 64 := by
      have hle : m.chunkId ≤ kMaxChunkIDValue := (of_decide_eq_true hid).2
      exact hle.trans_lt (by decide)
    rw [map_cons, storedPair, decodePage, parseChunkIndex, toList_toString,
      parseDecimal_decimal hindex, parseAttachedChunkIDText, toList_toString,
      parseDecimal_decimal hlimit]
    simp only [parseAttachedChunkID, hid, Bool.not_true, Bool.false_eq_true, if_false,
      ih fun m hm => h m (mem_cons_of_mem _ hm)]
    rfl

/-- 許された応答の列を読み終えると、返された要素を順に並べた mapping が集まる -/
theorem scanMappings_eq (hlast : last.2 = 0) (hfront : ∀ p ∈ front, p.2 ≠ 0) :
    ∀ {acc ms : List ChunkMapping}, scanned (front ++ [last]) = ms.map storedPair →
      (∀ m ∈ ms, m.index < 2 ^ 64 ∧ isValidChunkID m.chunkId = true) →
      scanMappings ((front ++ [last]).map .ok) acc = some (finishMappings (acc ++ ms)) := by
  induction front with
  | nil =>
    intro acc ms hms hvalid
    rw [scanned, nil_append, flatMap_singleton] at hms
    rw [nil_append, map_singleton, scanMappings, hms, decodePage_map hvalid]
    dsimp only
    rw [if_pos hlast]
  | cons p front ih =>
    intro acc ms hms hvalid
    rw [scanned, cons_append, flatMap_cons] at hms
    obtain ⟨ms₁, ms₂, rfl, hpage, hrest⟩ := map_eq_append_iff.mp hms.symm
    have hne := hfront p mem_cons_self
    rw [cons_append, map_cons, scanMappings, ← hpage,
      decodePage_map fun m hm => hvalid m (mem_append_left _ hm)]
    dsimp only
    rw [if_neg hne, ih (fun q hq => hfront q (mem_cons_of_mem _ hq)) hrest.symm
      fun m hm => hvalid m (mem_append_right _ hm), append_assoc]

/-! ## 重複の検査 -/

theorem strict_of_not_hasAdjacentDuplicate (hsorted : ms.Pairwise fun a b => a.index ≤ b.index)
    (h : hasAdjacentDuplicate ms = false) : ms.Pairwise fun a b => a.index < b.index := by
  induction ms with
  | nil => exact .nil
  | cons a ms ih =>
    obtain ⟨ha, hms⟩ := pairwise_cons.mp hsorted
    cases ms with
    | nil => exact pairwise_singleton _ _
    | cons b rest =>
      rw [hasAdjacentDuplicate, Bool.or_eq_false_iff, beq_eq_false_iff_ne] at h
      have hstrict := ih hms h.2
      refine pairwise_cons.mpr ⟨fun c hc => ?_, hstrict⟩
      have hab : a.index < b.index := lt_of_le_of_ne (ha b mem_cons_self) h.1
      rcases mem_cons.mp hc with rfl | hc
      · exact hab
      · exact hab.trans ((pairwise_cons.mp hstrict).1 c hc)

theorem finishMappings_ok :
    finishMappings ms = .ok r ↔ (ms.map ChunkMapping.index).Nodup ∧ r = sortMappings ms := by
  have hperm : ((sortMappings ms).map ChunkMapping.index).Perm (ms.map ChunkMapping.index) :=
    (sortMappings_perm ms).map _
  simp only [finishMappings, Result.bind_ok_iff, Result.failIf_ok_iff, Result.pure_ok_iff,
    exists_const]
  constructor
  · rintro ⟨hdup, rfl⟩
    have hstrict := strict_of_not_hasAdjacentDuplicate (sortMappings_sorted ms)
      (Bool.eq_false_of_not_eq_true hdup)
    refine ⟨hperm.nodup_iff.mp ?_, rfl⟩
    exact pairwise_map.mpr (hstrict.imp fun hlt => Nat.ne_of_lt hlt)
  · rintro ⟨hnodup, rfl⟩
    refine ⟨?_, rfl⟩
    rw [hasAdjacentDuplicate_of_strict (sortMappings_strict hnodup)]
    exact Bool.false_ne_true

/-! ## 許された応答の列 -/

theorem LegalScan.mappings (h : LegalScan s ino pages) :
    ∃ ms : List ChunkMapping, scanned pages = ms.map storedPair ∧
      ∀ m, m ∈ ms ↔ attachedAt s ino m.index = some m.chunkId := by
  have hread : ∀ xs : List (String × String),
      (∀ x ∈ xs, ∃ m, attachedAt s ino m.index = some m.chunkId ∧ x = storedPair m) →
      ∃ ms : List ChunkMapping, xs = ms.map storedPair ∧
        ∀ m ∈ ms, attachedAt s ino m.index = some m.chunkId := by
    intro xs
    induction xs with
    | nil => exact fun _ => ⟨[], rfl, nofun⟩
    | cons x xs ih =>
      intro hxs
      obtain ⟨m, hm, rfl⟩ := hxs x mem_cons_self
      obtain ⟨ms, rfl, hms⟩ := ih fun y hy => hxs y (mem_cons_of_mem _ hy)
      exact ⟨m :: ms, rfl, forall_mem_cons.mpr ⟨hm, hms⟩⟩
  obtain ⟨ms, hms, hmem⟩ := hread _ h.sound
  refine ⟨ms, hms, fun m => ⟨hmem m, fun hm => ?_⟩⟩
  have hfound := h.complete m hm
  rw [hms] at hfound
  exact (mem_map_of_injective storedPair_injective).mp hfound

theorem nodup_fields_iff :
    ((ms.map storedPair).map Prod.fst).Nodup ↔ (ms.map ChunkMapping.index).Nodup := by
  have hfields : (ms.map storedPair).map Prod.fst
      = (ms.map ChunkMapping.index).map fun i => toString i := by
    rw [map_map, map_map]
    rfl
  have hinj : Function.Injective fun i : Nat => toString i := by
    intro i j hij
    refine decimal_injective ?_
    rw [← toList_toString, ← toList_toString]
    exact congrArg String.toList hij
  rw [hfields, nodup_map_iff hinj]

/--
変わらない chunk_refs の上の許された応答の列の下で、`ReadFileMappingSnapshot` が hash の mapping を
一度ずつ番号の順に返すのは、どの field も一度しか返されなかったときに限る。重複があれば失敗する。
-/
theorem mapping_scan_exact_iff (s : Redis) (ino : InodeID) (inode : SwordFsInode)
    (pages : List (List (String × String) × Nat)) (hfile : StoredFile s ino inode)
    (hscan : LegalScan s ino pages) :
    ((∃ ms, readFileMappingPages s ino (pages.map .ok) = some (.ok ⟨inode, ms⟩) ∧
        (ms.Pairwise fun a b => a.index < b.index) ∧
        ∀ m, m ∈ ms ↔ attachedAt s ino m.index = some m.chunkId) ↔
      ((scanned pages).map Prod.fst).Nodup) ∧
    (¬ ((scanned pages).map Prod.fst).Nodup →
      readFileMappingPages s ino (pages.map .ok)
        = some (.error (.malformed "duplicate FileMetadata chunk index"))) := by
  obtain ⟨ms, hms, hmem⟩ := hscan.mappings
  obtain ⟨front, last, hpages, hlast, hfront⟩ := hscan.cursors
  have hlookup : (lookupInode ino).eval s [] = .ok (inode, []) :=
    lookupInode_ok.mpr ⟨hfile.stored, hfile.ino_ne, rfl, rfl⟩
  have hread : readFileMappingPages s ino (pages.map .ok)
      = some ((finishMappings ms).map fun ms => ⟨inode, ms⟩) := by
    rw [readFileMappingPages, hlookup]
    dsimp only
    rw [hfile.regular, Bool.not_true, if_neg Bool.false_ne_true, hpages,
      scanMappings_eq hlast hfront (hpages ▸ hms) fun m hm => hfile.valid ((hmem m).mp hm)]
    rfl
  rw [hms, nodup_fields_iff, hread]
  refine ⟨⟨?_, fun hnodup => ?_⟩, fun hdup => ?_⟩
  · rintro ⟨ms', hok, -, -⟩
    obtain ⟨r, hr, -⟩ := Result.map_ok_iff.mp (Option.some.inj hok)
    exact (finishMappings_ok.mp hr).1
  · refine ⟨sortMappings ms, ?_, sortMappings_strict hnodup, fun m => ?_⟩
    · rw [finishMappings_ok.mpr ⟨hnodup, rfl⟩]
      rfl
    · rw [mem_sortMappings, hmem]
  · have hfail : hasAdjacentDuplicate (sortMappings ms) = true := by
      by_contra hnot
      refine hdup (finishMappings_ok (r := sortMappings ms).mp ?_).1
      rw [finishMappings, Result.failIf, if_neg hnot]
      rfl
    rw [finishMappings, Result.failIf, if_pos hfail]
    rfl

/-! ## 例 -/

def oneChunkInode : SwordFsInode := { ino := 2, attr := SwordFsAttr.create 0 sIfreg 0 0 }

/-- inode 2 の chunk 0 に ChunkID 1 が取り付けられた store -/
def oneChunkStore : Redis
  | .inode ino => if ino = 2 then some oneChunkInode else none
  | .directory _ => (∅ : Hash String SwordFsEntry)
  | .chunkRefs ino => if ino = 2 then AList.insert 0 1 ∅ else (∅ : Hash Nat ChunkID)
  | .orphans => (∅ : Hash InodeID Unit)
  | .reclaims => (∅ : Hash InodeID ReclaimWork)
  | .pendingDeletes => (∅ : Hash CleanupId PendingDelete)
  | .inodeCount => (1 : Int)

theorem attachedAt_oneChunkStore {id : ChunkID} :
    attachedAt oneChunkStore 2 i = some id ↔ i = 0 ∧ id = 1 := by
  show AList.lookup i (AList.insert 0 1 (∅ : Hash Nat ChunkID)) = some id ↔ _
  by_cases hi : i = 0
  · subst hi
    rw [AList.lookup_insert]
    simp [eq_comm]
  · rw [AList.lookup_insert_ne hi]
    simp [hi]

theorem storedFile_oneChunkStore : StoredFile oneChunkStore 2 oneChunkInode where
  stored := rfl
  ino_ne := by decide
  regular := by decide
  valid := by
    intro i id h
    obtain ⟨rfl, rfl⟩ := attachedAt_oneChunkStore.mp h
    decide

/-- 返された要素が chunk 0 のものだけで、少なくとも一度返されていればよい -/
theorem legalScan_oneChunkStore {last : List (String × String) × Nat} (hlast : last.2 = 0)
    (hfront : ∀ p ∈ front, p.2 ≠ 0) (hsound : ∀ x ∈ scanned (front ++ [last]), x = ("0", "1"))
    (hcomplete : ("0", "1") ∈ scanned (front ++ [last])) :
    LegalScan oneChunkStore 2 (front ++ [last]) where
  cursors := ⟨front, last, rfl, hlast, hfront⟩
  sound x hx := ⟨⟨0, 1⟩, attachedAt_oneChunkStore.mpr ⟨rfl, rfl⟩, hsound x hx⟩
  complete := by
    rintro ⟨i, id⟩ h
    obtain ⟨rfl, rfl⟩ := attachedAt_oneChunkStore.mp h
    exact hcomplete

/-- 空の頁を挟んで一度だけ返されれば、読みは成功する -/
theorem mapping_scan_exact_iff_once :
    ∃ ms, readFileMappingPages oneChunkStore 2 [.ok ([], 5), .ok ([("0", "1")], 0)]
        = some (.ok ⟨oneChunkInode, ms⟩) ∧ (ms.Pairwise fun a b => a.index < b.index) ∧
      ∀ m, m ∈ ms ↔ attachedAt oneChunkStore 2 m.index = some m.chunkId :=
  (mapping_scan_exact_iff oneChunkStore 2 oneChunkInode ([([], 5)] ++ [([("0", "1")], 0)])
    storedFile_oneChunkStore
    (legalScan_oneChunkStore rfl (by decide) (by decide) (by decide))).1.mpr (by decide)

/-- 同じ field が二つの頁で返されると、許された応答の列であっても読みは失敗する -/
theorem mapping_scan_repeated_field :
    StoredFile oneChunkStore 2 oneChunkInode ∧
    LegalScan oneChunkStore 2 [([("0", "1")], 7), ([("0", "1")], 0)] ∧
    readFileMappingPages oneChunkStore 2 [.ok ([("0", "1")], 7), .ok ([("0", "1")], 0)]
      = some (.error (.malformed "duplicate FileMetadata chunk index")) := by
  refine ⟨storedFile_oneChunkStore, ?_, rfl⟩
  show LegalScan oneChunkStore 2 ([([("0", "1")], 7)] ++ [([("0", "1")], 0)])
  exact legalScan_oneChunkStore rfl (by decide) (by decide) (by decide)

end SwordFS.Metadata
