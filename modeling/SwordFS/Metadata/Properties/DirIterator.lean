import SwordFS.Metadata.Redis.DirIterator

/-!
# directory の iterator は列を指す

一頁だけの cache は、hash の要素の列への番号による参照を模す。要は `Cached` である。通り過ぎた要素、
頁の要素、cursor の先に残る要素を繋ぐと、いつも hash の要素の列になる。HSCAN が途中で失敗しても、
読み終えた頁は通り過ぎた側に移っているので、この関係は崩れない。
-/

namespace SwordFS.Metadata.Redis

open SwordFS.Infra

/-- 変わらない directory。保存された entry はどれも読め、名前は field と一致する -/
structure Directory where
  hash : DirHash
  ino : InodeID
  parentIno : InodeID
  wellFormed : ∀ x ∈ hash.items, parseEntry x.2 = .ok () ∧ x.2.name = x.1
  /-- HSCAN の失敗が directory の終わりと取り違えられることは無い -/
  failures : ∀ {n c count e}, hash.scan n c count = .error e → e.code ≠ .endOfDirectory

namespace Directory

/-- `OpenDir` が iterator に渡す、先頭の二つの entry -/
def dots (d : Directory) : List SwordFsEntry := [⟨".", .dir, d.ino⟩, ⟨"..", .dir, d.parentIno⟩]

def entries (d : Directory) : List SwordFsEntry := d.dots ++ d.hash.items.map Prod.snd

def openDir (d : Directory) : DirIterator := { prefixEntries := d.dots }

def ScanFailure (d : Directory) (e : Status) : Prop :=
  ∃ n c count, d.hash.scan n c count = .error e

theorem ScanFailure.not_end {d : Directory} (h : d.ScanFailure e) : e.code ≠ .endOfDirectory := by
  obtain ⟨n, c, count, hs⟩ := h
  exact d.failures hs

end Directory

/-! ## cache -/

namespace DirEntryCache

def ahead (hash : DirHash) (c : DirEntryCache) : List (String × SwordFsEntry) :=
  if c.exhausted then [] else hash.rest c.cursor

/-- 通り過ぎた要素、頁、残りを繋ぐと hash の要素になる -/
def Cached (hash : DirHash) (c : DirEntryCache) : Prop :=
  ∃ passed, passed.length = c.baseIndex ∧ hash.items = passed ++ c.entries ++ c.ahead hash

theorem cached_reset (hash : DirHash) (c : DirEntryCache) : c.reset.Cached hash :=
  ⟨[], rfl, rfl⟩

variable {hash : DirHash} {c : DirEntryCache}

theorem Cached.skip (h : c.Cached hash) :
    Cached hash { c with baseIndex := c.baseIndex + c.entries.length, entries := [] } := by
  obtain ⟨passed, hlen, hitems⟩ := h
  refine ⟨passed ++ c.entries, ?_, ?_⟩
  · rw [List.length_append, hlen]
  · rw [hitems, List.append_nil]
    rfl

theorem Cached.getElem? (h : c.Cached hash) (hbase : c.baseIndex ≤ index)
    (hlt : index < c.baseIndex + c.entries.length) :
    hash.items[index]? = c.entries[index - c.baseIndex]? := by
  obtain ⟨passed, hlen, hitems⟩ := h
  rw [hitems, List.append_assoc, List.getElem?_append_right (by omega), hlen,
    List.getElem?_append_left (by omega)]

/-- HSCAN の一手の後の cache。頁は `entries` に置かれるか、通り過ぎられる -/
theorem Cached.scan (h : c.Cached hash) (hempty : c.entries = []) (hopen : ¬ c.exhausted)
    (hs : hash.scan c.reads c.cursor kHScanCount = .ok (values, next)) :
    Cached hash { c with
      entries := values, cursor := next, exhausted := next == 0, reads := c.reads + 1 } := by
  obtain ⟨passed, hlen, hitems⟩ := h
  refine ⟨passed, hlen, ?_⟩
  rw [hitems, hempty, List.append_nil, ahead, if_neg hopen, HashScan.rest_eq hs, List.append_assoc]
  congr 2
  show hash.after next = if (next == 0) = true then [] else hash.rest next
  rw [HashScan.after]
  simp only [beq_iff_eq]

theorem load_spec (d : Directory) (index : Nat) (c : DirEntryCache) (h : c.Cached d.hash)
    (hempty : c.entries = []) (hbase : c.baseIndex ≤ index) :
    (c.load d.hash index).2.Cached d.hash ∧
    (c.load d.hash index).2.baseIndex ≤ index ∧
    ((∃ e, (c.load d.hash index).1 = .error e ∧ d.ScanFailure e) ∨
     (c.load d.hash index).1 = .ok () ∧
      (index < (c.load d.hash index).2.baseIndex + (c.load d.hash index).2.entries.length ∨
       (c.load d.hash index).2.exhausted = true ∧ (c.load d.hash index).2.entries = [])) := by
  fun_induction load d.hash index c with
  | case1 c hdone => exact ⟨h, hbase, .inr ⟨rfl, .inr ⟨hdone, hempty⟩⟩⟩
  | case2 c hopen e hs =>
    obtain ⟨passed, hlen, hitems⟩ := h
    exact ⟨⟨passed, hlen, hitems⟩, hbase, .inl ⟨e, rfl, _, _, _, hs⟩⟩
  | case3 c hopen values next hs hlt =>
    exact ⟨h.scan hempty hopen hs, hbase, .inr ⟨rfl, .inl hlt⟩⟩
  | case4 c hopen values next hs hge ih =>
    refine ih ?_ hempty (by show c.baseIndex + values.length ≤ index; omega)
    have hnext := (h.scan hempty hopen hs).skip
    rw [hempty]
    exact hnext

theorem ensureLoaded_spec {d : Directory}
    (h : c.Cached d.hash) (hl : c.ensureLoaded d.hash index = (r, c')) :
    c'.Cached d.hash ∧ c'.baseIndex ≤ index ∧
    ((∃ e, r = .error e ∧ d.ScanFailure e) ∨
     r = .ok () ∧ (index < c'.baseIndex + c'.entries.length ∨
       c'.exhausted = true ∧ c'.entries = [])) := by
  unfold ensureLoaded at hl
  -- 前の番号なら走査をやり直す。どちらでも位置は番号を越えない
  have hstart : ∃ c₀, (if index < c.baseIndex then c.reset else c) = c₀ ∧
      c₀.Cached d.hash ∧ c₀.baseIndex ≤ index := by
    split
    next => exact ⟨_, rfl, cached_reset _ _, Nat.zero_le _⟩
    next hge => exact ⟨_, rfl, h, Nat.le_of_not_lt hge⟩
  obtain ⟨c₀, hc₀, hcached, hbase⟩ := hstart
  rw [hc₀] at hl
  dsimp only at hl
  split at hl
  next hlt =>
    cases hl
    exact ⟨hcached, hbase, .inr ⟨rfl, .inl hlt⟩⟩
  next hge =>
    have hspec := load_spec d index _ hcached.skip rfl (Nat.le_of_not_lt hge)
    rwa [hl] at hspec

/-- `Get(index)` は、HSCAN が失敗しない限り `index` 番目の要素を返すか、終わりを告げる -/
theorem get_spec {d : Directory} (index : Nat) (h : c.Cached d.hash) :
    ∃ r c', c.get d.hash index = some (r, c') ∧ c'.Cached d.hash ∧
      ((∃ e, r = .error e ∧ d.ScanFailure e) ∨
       (∃ x, d.hash.items[index]? = some x ∧ r = .ok x.2) ∨
       (d.hash.items.length ≤ index ∧ r = .error ⟨.endOfDirectory, "directory end"⟩)) := by
  rcases hl : c.ensureLoaded d.hash index with ⟨r, c'⟩
  obtain ⟨hcached, hbase, hcase⟩ := ensureLoaded_spec h hl
  unfold get
  rw [hl]
  rcases hcase with ⟨e, rfl, hfail⟩ | ⟨rfl, hload⟩
  · exact ⟨_, _, rfl, hcached, .inl ⟨e, rfl, hfail⟩⟩
  · dsimp only
    by_cases hlt : index < c'.baseIndex + c'.entries.length
    · rw [if_neg (Nat.not_le.mpr hlt)]
      have hsome : index - c'.baseIndex < c'.entries.length := by omega
      have hitem := hcached.getElem? hbase hlt
      rw [List.getElem?_eq_getElem hsome] at hitem ⊢
      rcases hx : c'.entries[index - c'.baseIndex] with ⟨name, value⟩
      rw [hx] at hitem
      obtain ⟨hparse, hname⟩ := d.wellFormed _ (List.mem_of_getElem? hitem)
      dsimp only at hparse hname ⊢
      rw [hparse]
      dsimp only
      rw [if_neg (not_not.mpr hname)]
      exact ⟨_, _, rfl, hcached, .inr (.inl ⟨_, hitem, rfl⟩)⟩
    · obtain ⟨hdone, hnil⟩ := hload.resolve_left hlt
      rw [if_pos (Nat.le_of_not_lt hlt), if_pos hdone]
      refine ⟨_, _, rfl, hcached, .inr (.inr ⟨?_, rfl⟩)⟩
      obtain ⟨passed, hlen, hitems⟩ := hcached
      rw [hitems, hnil, ahead, if_pos hdone, List.append_nil, List.append_nil, hlen]
      exact hbase

end DirEntryCache

/-! ## iterator -/

namespace DirIterator

/-- `d` を開いて得た iterator が、どの呼び出しの後でも満たすこと -/
structure Over (d : Directory) (it : DirIterator) : Prop where
  cached : it.cache.Cached d.hash
  dots : it.prefixEntries = d.dots
  pending : ∀ next ∈ it.pendingNext, next = it.position + 1

theorem over_openDir (d : Directory) : d.openDir.Over d where
  cached := DirEntryCache.cached_reset d.hash {}
  dots := rfl
  pending := nofun

variable {d : Directory} {it : DirIterator}

theorem Over.seek (h : it.Over d) (cookie : Nat) :
    (it.seek cookie).Over d where
  cached := h.cached
  dots := h.dots
  pending := nofun

theorem Over.advance (h : it.Over d) (ha : it.advance = some it') :
    it'.Over d ∧ it'.position = it.position + 1 ∧ it'.pendingNext = none ∧
      it'.misused = it.misused := by
  obtain ⟨next, hnext, rfl⟩ := Option.map_eq_some_iff.mp ha
  exact ⟨⟨h.cached, h.dots, nofun⟩, h.pending next hnext, rfl, rfl⟩

/-- `Peek` の三つの結末 -/
inductive Peeked (d : Directory) (it : DirIterator) :
    Result (SwordFsEntry × Nat) → DirIterator → Prop
  | failed {e it'} : d.ScanFailure e → it'.Over d → it'.position = it.position →
      it'.misused = it.misused → it'.pendingNext = none → Peeked d it (.error e) it'
  | found {entry it'} : d.entries[it.position]? = some entry → it'.Over d →
      it'.position = it.position → it'.misused = it.misused →
      it'.pendingNext = some (it.position + 1) → Peeked d it (.ok (entry, it.position + 1)) it'
  | ended {e it'} : d.entries.length ≤ it.position → e.code = .endOfDirectory → it'.Over d →
      it'.position = it.position → it'.misused = it.misused → it'.pendingNext = none →
      Peeked d it (.error e) it'

/-- 進めずに続けて呼ばれない限り、`Peek` は位置にある entry を返す -/
theorem peek_spec (h : it.Over d) (hidle : it.pendingNext = none) :
    ∃ r it', it.peek d.hash = some (r, it') ∧ Peeked d it r it' := by
  unfold peek
  rw [if_neg (by rw [hidle]; exact Bool.false_ne_true)]
  split
  next entry hdot =>
    rw [h.dots] at hdot
    refine ⟨_, _, rfl, .found ?_ ⟨h.cached, h.dots, ?_⟩ rfl rfl rfl⟩
    · obtain ⟨hlt, -⟩ := List.getElem?_eq_some_iff.mp hdot
      rw [Directory.entries, List.getElem?_append_left hlt]
      exact hdot
    · rintro next ⟨⟩
      rfl
  next hpast =>
    have hge := List.getElem?_eq_none_iff.mp hpast
    obtain ⟨r, c', hget, hcached, hcase⟩ :=
      DirEntryCache.get_spec (it.position - it.prefixEntries.length) h.cached
    rw [h.dots] at hge hcase
    rw [hget]
    rcases hcase with ⟨e, rfl, hfail⟩ | ⟨x, hx, rfl⟩ | ⟨hend, rfl⟩
    · exact ⟨_, _, rfl, .failed hfail ⟨hcached, h.dots, h.pending⟩ rfl rfl hidle⟩
    · refine ⟨_, _, rfl, .found ?_ ⟨hcached, h.dots, ?_⟩ rfl rfl rfl⟩
      · rw [Directory.entries, List.getElem?_append_right hge, List.getElem?_map, hx]
        rfl
      · rintro next ⟨⟩
        rfl
    · refine ⟨_, _, rfl, .ended ?_ rfl ⟨hcached, h.dots, h.pending⟩ rfl rfl hidle⟩
      rw [Directory.entries, List.length_append, List.length_map]
      omega

/-! ## 任意の操作の列 -/

/-- iterator の利用者が行える操作 -/
inductive Op where
  | seek (cookie : Nat)
  | peek
  | advance
deriving DecidableEq, Repr

/-- 一つの操作。`CHECK` に失敗する操作は行われない -/
def apply (hash : DirHash) (it : DirIterator) : Op → DirIterator
  | .seek cookie => it.seek cookie
  | .peek => (it.peek hash).elim it Prod.snd
  | .advance => it.advance.getD it

theorem Over.apply (h : it.Over d) (op : Op) : (it.apply d.hash op).Over d := by
  cases op with
  | seek cookie => exact h.seek cookie
  | peek =>
    show ((it.peek d.hash).elim it Prod.snd).Over d
    cases hp : it.pendingNext with
    | none =>
      obtain ⟨r, it', hpeek, hcase⟩ := peek_spec h hp
      rw [hpeek]
      cases hcase with
      | failed _ hover => exact hover
      | found _ hover => exact hover
      | ended _ _ hover => exact hover
    | some next =>
      rw [DirIterator.peek, if_pos (by rw [hp]; rfl)]
      exact ⟨h.cached, h.dots, h.pending⟩
  | advance =>
    show (it.advance.getD it).Over d
    cases ha : it.advance with
    | none => exact h
    | some it' => exact (h.advance ha).1

theorem over_foldl (ops : List Op) (h : it.Over d) :
    (ops.foldl (DirIterator.apply d.hash) it).Over d := by
  induction ops generalizing it with
  | nil => exact h
  | cons op ops ih => exact ih (h.apply op)

end DirIterator

end SwordFS.Metadata.Redis
