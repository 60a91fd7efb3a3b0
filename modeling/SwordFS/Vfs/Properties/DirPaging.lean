import SwordFS.Metadata.Properties.DirIterator
import SwordFS.Vfs.DirHandle

/-!
# directory の頁送り

`ReadDir` の返答は、求められた位置から始まる entry の列の先頭の何個かである。返答が空になるのは
directory の終わりに限る。したがって、最後に返った offset から呼び直し続ければ、全体をちょうど一度
列挙する。
-/

namespace SwordFS.Vfs

open List SwordFS.Metadata SwordFS.Metadata.Redis

variable {d : Directory} {encoder : DirEncoder}

def DirEncoder.Fits (encoder : DirEncoder) (entries : List SwordFsEntry) (size : Nat) : Prop :=
  ∀ entry ∈ entries, ∀ nextOff, encoder.calSpace entry nextOff ≤ size

def direntsFrom (encoder : DirEncoder) : Nat → List SwordFsEntry → List Dirent
  | _, [] => []
  | off, e :: es =>
    ⟨e, off + 1, encoder.calSpace e (off + 1)⟩ :: direntsFrom encoder (off + 1) es

theorem direntsFrom_append (off : Nat) (xs ys : List SwordFsEntry) :
    direntsFrom encoder off (xs ++ ys)
      = direntsFrom encoder off xs ++ direntsFrom encoder (off + xs.length) ys := by
  induction xs generalizing off with
  | nil => rfl
  | cons x xs ih =>
    rw [cons_append, direntsFrom, ih, direntsFrom, cons_append, length_cons,
      Nat.add_right_comm off, Nat.add_assoc off]

@[simp]
theorem map_entry_direntsFrom (off : Nat) (es : List SwordFsEntry) :
    (direntsFrom encoder off es).map Dirent.entry = es := by
  induction es generalizing off with
  | nil => rfl
  | cons e es ih => rw [direntsFrom, map_cons, ih]

variable {off size : Nat}

theorem direntsFrom_eq_nil : direntsFrom encoder off es = [] ↔ es = [] := by
  cases es with
  | nil => simp [direntsFrom]
  | cons e es => simp [direntsFrom]

theorem getLast?_direntsFrom (off : Nat) (es : List SwordFsEntry) :
    ((direntsFrom encoder off es).getLast?.map Dirent.nextOff).getD off = off + es.length := by
  rcases eq_nil_or_concat es with rfl | ⟨es, e, rfl⟩
  · rfl
  · rw [concat_eq_append, direntsFrom_append]
    simp [direntsFrom, Nat.add_assoc]

@[simp]
theorem replySize_append (xs ys : List Dirent) :
    replySize (xs ++ ys) = replySize xs + replySize ys := by
  rw [replySize, map_append, sum_append]
  rfl

theorem replySize_direntsFrom_eq_zero : replySize (direntsFrom encoder off es) = 0 ↔ es = [] := by
  cases es with
  | nil => simp [direntsFrom, replySize]
  | cons e es =>
    have hpos := encoder.calSpace_pos e (off + 1)
    simp only [direntsFrom, replySize, map_cons, sum_cons, reduceCtorEq, iff_false]
    omega

/-- 返答の約束。求められた位置から続く列の先頭で、空なら終わりに達している -/
structure Page (d : Directory) (encoder : DirEncoder) (off size : Nat) (reply : List Dirent) :
    Prop where
  fits : replySize reply ≤ size
  cut : ∃ es rest, d.entries.drop off = es ++ rest ∧ reply = direntsFrom encoder off es ∧
    (es = [] → rest = [])

/-- 呼び出しの結末。失敗は HSCAN の失敗に限る -/
structure Served (d : Directory) (encoder : DirEncoder) (off size : Nat)
    (r : Result (List Dirent)) (it : DirIterator) : Prop where
  held : it.Over d
  failed : ∀ e, r = .error e → d.ScanFailure e
  page : ∀ reply, r = .ok reply → Page d encoder off size reply

theorem readDirLoop_spec (hfit : encoder.Fits d.entries size) (hpos : 0 < size) :
    ∀ {fuel : Nat} (es rest : List SwordFsEntry) {it : DirIterator},
      d.entries.drop off = es ++ rest → it.Over d → it.pendingNext = none →
      it.position = off + es.length → replySize (direntsFrom encoder off es) ≤ size →
      size - replySize (direntsFrom encoder off es) < fuel →
      ∃ r it', readDirLoop d.hash encoder size fuel (direntsFrom encoder off es) it = some (r, it') ∧
        Served d encoder off size r it' := by
  intro fuel
  induction fuel with
  | zero => exact fun _ _ _ _ _ _ _ _ hfuel => absurd hfuel (Nat.not_lt_zero _)
  | succ fuel ih =>
    intro es rest it hcut hover hidle hposn hle hfuel
    -- ここまでの record を返してよい条件
    have hstop : (es = [] → rest = []) → Page d encoder off size (direntsFrom encoder off es) :=
      fun hend => ⟨hle, es, rest, hcut, rfl, hend⟩
    have hnext : d.entries[it.position]? = rest[0]? := by
      rw [hposn, ← getElem?_drop, hcut, getElem?_append_right le_rfl, Nat.sub_self]
    rw [readDirLoop]
    split
    next hroom =>
      obtain ⟨r, it₁, hpeek, hcase⟩ := DirIterator.peek_spec hover hidle
      rw [hpeek]
      cases hcase with
      | failed hfail hover₁ =>
        dsimp only
        rw [if_neg hfail.not_end]
        refine ⟨_, _, rfl, hover₁, ?_, nofun⟩
        rintro e ⟨⟩
        exact hfail
      | ended hlen hcode hover₁ =>
        dsimp only
        rw [if_pos hcode]
        refine ⟨_, _, rfl, hover₁, nofun, ?_⟩
        rintro reply ⟨⟩
        refine hstop fun _ => ?_
        rw [getElem?_eq_none hlen] at hnext
        exact List.getElem?_eq_none_iff.mp hnext.symm |> Nat.le_zero.mp |> length_eq_zero_iff.mp
      | @found entry _ hentry hover₁ hposn₁ _ hpend =>
        have hmem := mem_of_getElem? hentry
        dsimp only
        split
        next hbig =>
          split
          next hempty =>
            -- どの entry も単独なら入る
            exact absurd (hfit entry hmem (it.position + 1)) (by omega)
          next hsome =>
            refine ⟨_, _, rfl, hover₁, nofun, ?_⟩
            rintro reply ⟨⟩
            exact hstop fun hnil => absurd (replySize_direntsFrom_eq_zero.mpr hnil) hsome
        next hsmall =>
          obtain ⟨it₂, hadv⟩ : ∃ it₂, it₁.advance = some it₂ :=
            ⟨_, by rw [DirIterator.advance, hpend]; rfl⟩
          obtain ⟨hover₂, hposn₂, hidle₂, -⟩ := hover₁.advance hadv
          rw [hadv]
          dsimp only
          obtain ⟨rest', rfl⟩ : ∃ rest', rest = entry :: rest' := by
            rw [hentry] at hnext
            cases rest with
            | nil => cases hnext
            | cons x rest' => cases hnext; exact ⟨rest', rfl⟩
          have hout : direntsFrom encoder off es ++ [⟨entry, it.position + 1,
              encoder.calSpace entry (it.position + 1)⟩] = direntsFrom encoder off (es ++ [entry]) := by
            rw [direntsFrom_append, hposn]
            rfl
          have hsize : replySize (direntsFrom encoder off (es ++ [entry]))
              = replySize (direntsFrom encoder off es)
                + encoder.calSpace entry (it.position + 1) := by
            rw [← hout, replySize_append]
            simp [replySize]
          have hgrow := encoder.calSpace_pos entry (it.position + 1)
          rw [hout]
          refine ih (es ++ [entry]) rest' ?_ hover₂ hidle₂ ?_ ?_ ?_
          · rw [hcut, append_assoc]
            rfl
          · rw [hposn₂, hposn₁, hposn, length_append]
            rfl
          · omega
          · omega
    next hfull =>
      refine ⟨_, _, rfl, hover, nofun, ?_⟩
      rintro reply ⟨⟩
      refine hstop fun hnil => ?_
      have hzero : replySize (direntsFrom encoder off es) = 0 :=
        replySize_direntsFrom_eq_zero.mpr hnil
      omega

/-- `ReadDir` は、iterator がどこにあっても、求められた位置から答える -/
theorem readDir_spec (off : Nat) (hfit : encoder.Fits d.entries size) (hover : it.Over d) :
    ∃ r it', readDir d.hash encoder off size it = some (r, it') ∧
      Served d encoder off size r it' := by
  have hpos : 0 < size :=
    (encoder.calSpace_pos _ 0).trans_le (hfit ⟨".", .dir, d.ino⟩ mem_cons_self 0)
  rw [readDir, if_neg hpos.ne']
  exact readDirLoop_spec hfit hpos [] _ (nil_append _).symm (hover.seek off) rfl rfl
    (Nat.zero_le _) (Nat.lt_succ_of_le (Nat.sub_le ..))

/-! ## 呼び直し -/

/-- 最後に返った offset から呼び直す利用者。`served` は OK の返答の数 -/
structure Pager where
  iterator : DirIterator
  off : Nat := 0
  received : List Dirent := []
  served : Nat := 0
deriving Repr, DecidableEq

def resumeAt (off : Nat) (reply : List Dirent) : Nat :=
  (reply.getLast?.map Dirent.nextOff).getD off

/-- 大きさ `size` の buffer での一回の呼び出し。失敗すれば何も受け取らない -/
def Pager.call (hash : DirHash) (encoder : DirEncoder) (p : Pager) (size : Nat) : Pager :=
  match readDir hash encoder p.off size p.iterator with
  | none => p
  | some (.error _, it) => { p with iterator := it }
  | some (.ok reply, it) =>
    { iterator := it, off := resumeAt p.off reply, received := p.received ++ reply,
      served := p.served + 1 }

/-- 受け取った record は、先頭から今の位置までの entry のもの -/
structure Paging (d : Directory) (encoder : DirEncoder) (p : Pager) : Prop where
  held : p.iterator.Over d
  off_le : p.off ≤ d.entries.length
  received : p.received = direntsFrom encoder 0 (d.entries.take p.off)
  progress : p.served ≤ p.off ∨ p.off = d.entries.length

theorem paging_openDir : Paging d encoder { iterator := d.openDir } :=
  ⟨DirIterator.over_openDir d, Nat.zero_le _, rfl, .inl le_rfl⟩

variable {p : Pager}

section

variable (h : Paging d encoder p)
include h

theorem Paging.complete_iff :
    p.received.map Dirent.entry = d.entries ↔ p.off = d.entries.length := by
  rw [h.received, map_entry_direntsFrom]
  constructor
  · intro htake
    have hlen := congrArg List.length htake
    rw [length_take] at hlen
    exact le_antisymm h.off_le (min_eq_right_iff.mp hlen)
  · intro hoff
    rw [hoff, take_length]

theorem Paging.reply {reply : List Dirent} (hpage : Page d encoder p.off size reply) :
    (reply = [] ↔ p.off = d.entries.length) ∧ resumeAt p.off reply ≤ d.entries.length ∧
    p.off + reply.length = resumeAt p.off reply ∧
    p.received ++ reply = direntsFrom encoder 0 (d.entries.take (resumeAt p.off reply)) := by
  obtain ⟨-, es, rest, hcut, rfl, hend⟩ := hpage
  have hoff : resumeAt p.off (direntsFrom encoder p.off es) = p.off + es.length :=
    getLast?_direntsFrom p.off es
  have hlen := congrArg List.length hcut
  rw [length_drop, length_append] at hlen
  have hle := h.off_le
  refine ⟨?_, by omega, ?_, ?_⟩
  · rw [direntsFrom_eq_nil]
    constructor
    · intro hnil
      rw [hend hnil, hnil, length_nil] at hlen
      omega
    · intro hoffEnd
      exact length_eq_zero_iff.mp (by omega)
  · rw [hoff, ← length_map Dirent.entry, map_entry_direntsFrom]
  · have htake : d.entries.take (p.off + es.length) = d.entries.take p.off ++ es := by
      rw [take_add, hcut, take_left]
    rw [h.received, hoff, htake, direntsFrom_append, Nat.zero_add, length_take_of_le hle]

theorem Paging.call (hfit : encoder.Fits d.entries size) :
    Paging d encoder (p.call d.hash encoder size) := by
  obtain ⟨r, it', hcall, hserved⟩ := readDir_spec p.off hfit h.held
  rw [Pager.call, hcall]
  cases r with
  | error e => exact { h with held := hserved.held }
  | ok reply =>
    obtain ⟨hnil, hle, hlen, hreceived⟩ := h.reply (hserved.page reply rfl)
    refine ⟨hserved.held, hle, hreceived, ?_⟩
    by_cases hend : p.off = d.entries.length
    · right
      show resumeAt p.off reply = d.entries.length
      omega
    · -- 終わりでなければ返答は空でない
      have hsome : 0 < reply.length := length_pos_iff.mpr fun hr => hend (hnil.mp hr)
      have hserve := h.progress.resolve_right hend
      left
      show p.served + 1 ≤ resumeAt p.off reply
      omega

theorem Paging.calls {sizes : List Nat} (hfit : ∀ size ∈ sizes, encoder.Fits d.entries size) :
    Paging d encoder (sizes.foldl (Pager.call d.hash encoder) p) := by
  induction sizes generalizing p with
  | nil => exact h
  | cons size sizes ih =>
    exact ih (h.call (hfit size mem_cons_self))
      fun size' hmem => hfit size' (mem_cons_of_mem _ hmem)

end

/--
変わらない directory を、最後に返った offset から呼び直しながら読むと、受け取った entry は列の先頭から
切れ目なく並び、次の返答が空になるのはすべてを受け取った後に限る。OK の返答が entry の数を超えれば
すべてを受け取っている。また、iterator をどう動かした後でも、cookie `c` で読める entry は `c` 番目の
entry である。
-/
theorem directory_paging_exact (d : Directory) (encoder : DirEncoder) (sizes : List Nat) (size : Nat)
    (hfit : ∀ s ∈ size :: sizes, encoder.Fits d.entries s) (ops : List DirIterator.Op)
    (cookie : Nat) :
    let p := sizes.foldl (Pager.call d.hash encoder) { iterator := d.openDir }
    let it := (ops.foldl (DirIterator.apply d.hash) d.openDir).seek cookie
    (p.received.map Dirent.entry = d.entries.take p.off ∧
      (d.entries.length < p.served → p.received.map Dirent.entry = d.entries) ∧
      ∃ r it', readDir d.hash encoder p.off size p.iterator = some (r, it') ∧
        (∀ e, r = .error e → d.ScanFailure e) ∧
        ∀ reply, r = .ok reply → replySize reply ≤ size ∧
          (p.received ++ reply).map Dirent.entry = d.entries.take (resumeAt p.off reply) ∧
          (reply = [] ↔ p.received.map Dirent.entry = d.entries)) ∧
    (∃ r it', it.peek d.hash = some (r, it') ∧
      (∀ entry next, r = .ok (entry, next) → d.entries[cookie]? = some entry ∧ next = cookie + 1) ∧
      (∀ e, r = .error e →
        d.ScanFailure e ∨ e.code = .endOfDirectory ∧ d.entries.length ≤ cookie)) := by
  intro p it
  have hp : Paging d encoder p :=
    paging_openDir.calls fun s hs => hfit s (mem_cons_of_mem _ hs)
  have hit : it.Over d := (DirIterator.over_foldl ops (DirIterator.over_openDir d)).seek cookie
  refine ⟨⟨?_, fun hmany => ?_, ?_⟩, ?_⟩
  · rw [hp.received, map_entry_direntsFrom]
  · refine hp.complete_iff.mpr (hp.progress.resolve_left fun hle => ?_)
    have := hp.off_le
    omega
  · obtain ⟨r, it', hcall, hserved⟩ :=
      readDir_spec p.off (hfit size mem_cons_self) hp.held
    refine ⟨r, it', hcall, hserved.failed, fun reply hr => ?_⟩
    have hpage := hserved.page reply hr
    obtain ⟨hnil, -, -, hreceived⟩ := hp.reply hpage
    exact ⟨hpage.fits, by rw [hreceived, map_entry_direntsFrom], hnil.trans hp.complete_iff.symm⟩
  · obtain ⟨r, it', hpeek, hcase⟩ := DirIterator.peek_spec hit rfl
    refine ⟨r, it', hpeek, ?_, ?_⟩
    · rintro entry next rfl
      cases hcase with
      | found hentry => exact ⟨hentry, rfl⟩
    · rintro e rfl
      cases hcase with
      | failed hfail => exact .inl hfail
      | ended hlen hcode => exact .inr ⟨hcode, hlen⟩

/-- 空の頁を挟んで二つの entry を持つ directory -/
def sampleDirectory : Directory where
  hash := .ofPages [[("a", ⟨"a", .reg, 5⟩)], [], [("b", ⟨"b", .reg, 6⟩)]] (by decide)
  ino := 1
  parentIno := 1
  wellFormed := by decide
  failures := nofun

def sampleEncoder : DirEncoder := ⟨fun _ _ => 32, fun _ _ => by decide⟩

theorem sampleEncoder_fits (h : 32 ≤ size) : sampleEncoder.Fits entries size :=
  fun _ _ _ => h

/-- 大きさの違う二回の呼び出しの後の三回目と、終わりまで読んでから戻った位置の読み -/
theorem directory_paging_exact_sample :
    let d := sampleDirectory
    let p := [32, 64].foldl (Pager.call d.hash sampleEncoder) { iterator := d.openDir }
    let it := ([.peek, .advance, .peek, .advance, .seek 4, .peek].foldl
      (DirIterator.apply d.hash) d.openDir).seek 1
    p.received.map Dirent.entry = d.entries.take 3 ∧
    (∃ r it', readDir d.hash sampleEncoder p.off 100 p.iterator = some (r, it') ∧
      ∀ reply, r = .ok reply → replySize reply ≤ 100 ∧ reply ≠ []) ∧
    ∃ r it', it.peek d.hash = some (r, it') ∧
      ∀ entry next, r = .ok (entry, next) → d.entries[1]? = some entry ∧ next = 2 := by
  intro d p it
  obtain ⟨⟨hreceived, -, r, it', hcall, -, hok⟩, r', it'', hpeek, hfound, -⟩ :=
    directory_paging_exact d sampleEncoder [32, 64] 100
      (fun s hs => sampleEncoder_fits (by revert s; decide))
      [.peek, .advance, .peek, .advance, .seek 4, .peek] 1
  have hoff : p.off = 3 := by decide +kernel
  refine ⟨hoff ▸ hreceived, ⟨r, it', hcall, fun reply hr => ?_⟩, r', it'', hpeek, hfound⟩
  obtain ⟨hfits, -, hend⟩ := hok reply hr
  refine ⟨hfits, fun hnil => ?_⟩
  have hall : d.entries.take p.off = d.entries := hreceived.symm.trans (hend.mp hnil)
  rw [hoff] at hall
  exact absurd hall (by decide)

end SwordFS.Vfs
