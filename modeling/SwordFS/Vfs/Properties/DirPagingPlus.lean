import Mathlib.Data.List.Induction
import SwordFS.Vfs.Properties.DirPaging

/-!
# 属性つきの頁送り

`ReadDirPlus` は候補の分の場所を取っておいてから inode をまとめて読む。消えた inode の分の場所は空くので、
入らなかった entry に戻って続けることがある。どの経路でも、返答は求められた位置から続く entry の列の
先頭の何個かのうち inode のあるものであり、空になるのは inode のある entry が残っていないときに限る。
-/

namespace SwordFS.Vfs

open List SwordFS.Metadata SwordFS.Metadata.Redis

variable {d : Directory} {encoder : DirEncoder} {inodes : InodeTable}

/-! ## inode のある record -/

def InodeTable.present (t : InodeTable) (e : SwordFsEntry) : Bool := (t.find e.ino).isSome

def attach (t : InodeTable) (ds : List Dirent) : List DirentPlus :=
  ds.filterMap fun c => (t.find c.entry.ino).map fun inode => (c, t.applyLive inode)

theorem attach_append (xs ys : List Dirent) :
    attach inodes (xs ++ ys) = attach inodes xs ++ attach inodes ys :=
  filterMap_append

variable (encoder inodes) in
theorem map_entry_attach (off : Nat) (es : List SwordFsEntry) :
    (attach inodes (direntsFrom encoder off es)).map (fun c => c.1.entry)
      = es.filter inodes.present := by
  induction es generalizing off with
  | nil => rfl
  | cons e es ih =>
    rw [direntsFrom, attach, filterMap_cons, filter_cons, InodeTable.present]
    cases hf : inodes.find e.ino with
    | none => exact ih (off + 1)
    | some inode => exact congrArg (e :: ·) (ih (off + 1))

variable {off size : Nat}

theorem attach_eq_nil :
    attach inodes (direntsFrom encoder off es) = [] ↔ es.filter inodes.present = [] := by
  rw [← map_entry_attach encoder inodes off, map_eq_nil_iff]

theorem replySizePlus_append (xs ys : List DirentPlus) :
    replySizePlus (xs ++ ys) = replySizePlus xs + replySizePlus ys := by
  rw [replySizePlus, map_append, replySize_append]
  rfl

theorem replySizePlus_attach_le (ds : List Dirent) :
    replySizePlus (attach inodes ds) ≤ replySize ds := by
  induction ds with
  | nil => exact le_rfl
  | cons c ds ih =>
    have hcons : replySize (c :: ds) = c.required + replySize ds := rfl
    rw [attach, filterMap_cons]
    cases inodes.find c.entry.ino with
    | none => exact ih.trans (by omega)
    | some inode =>
      show c.required + replySizePlus (attach inodes ds) ≤ _
      omega

theorem replySizePlus_attach_eq_zero :
    replySizePlus (attach inodes (direntsFrom encoder off es)) = 0 ↔
      attach inodes (direntsFrom encoder off es) = [] := by
  induction es generalizing off with
  | nil => exact ⟨fun _ => rfl, fun _ => rfl⟩
  | cons e es ih =>
    rw [direntsFrom, attach, filterMap_cons]
    cases inodes.find e.ino with
    | none => exact ih
    | some inode =>
      have hpos := encoder.calSpace_pos e (off + 1)
      refine ⟨fun hz => ?_, fun h => by cases h⟩
      have hsum : encoder.calSpace e (off + 1)
          + replySizePlus (attach inodes (direntsFrom encoder (off + 1) es)) = 0 := hz
      omega

variable (encoder inodes) in
/-- 最後の record より後の entry には inode が無い。そこから呼び直せば取りこぼさない -/
theorem resumeAt_attach (off : Nat) (es : List SwordFsEntry) :
    ∃ es₁ es₂, es = es₁ ++ es₂ ∧
      resumeAt off ((attach inodes (direntsFrom encoder off es)).map Prod.fst)
        = off + es₁.length ∧
      es₂.filter inodes.present = [] ∧ (es₁ = [] → es.filter inodes.present = []) := by
  induction es using List.reverseRecOn with
  | nil => exact ⟨[], [], rfl, rfl, rfl, fun _ => rfl⟩
  | append_singleton es e ih =>
    rw [direntsFrom_append, attach_append, direntsFrom, direntsFrom]
    cases hf : inodes.find e.ino with
    | none =>
      obtain ⟨es₁, es₂, hes, hoff, hmiss, hnone⟩ := ih
      have hskip : [e].filter inodes.present = [] := by
        rw [filter_singleton, InodeTable.present, hf]
        rfl
      refine ⟨es₁, es₂ ++ [e], by rw [hes, append_assoc], ?_, ?_, fun hnil => ?_⟩
      · rw [← hoff]
        congr 2
        simp [attach, hf]
      · rw [filter_append, hmiss, hskip, append_nil]
      · rw [filter_append, hnone hnil, hskip, append_nil]
    | some inode =>
      refine ⟨es ++ [e], [], (append_nil _).symm, ?_, rfl, fun hnil => ?_⟩
      · simp [attach, hf, resumeAt, Nat.add_assoc]
      · exact absurd hnil (append_ne_nil_of_right_ne_nil _ (cons_ne_nil _ _))

/-! ## 候補を集める loop -/

/-- 集めた候補の約束。`cs` は候補の entry、`rest` はその先に残る entry -/
structure Collected (d : Directory) (encoder : DirEncoder) (cookie available : Nat)
    (cs rest : List SwordFsEntry) (b : Batch) (it : DirIterator) : Prop where
  cut : d.entries.drop cookie = cs ++ rest
  candidates : b.candidates = direntsFrom encoder cookie cs
  current : b.currentCookie = cookie + cs.length
  reserved : b.reserved = replySize b.candidates
  fits : b.reserved ≤ available
  held : it.Over d

/-- loop の結末。終わりに達したか、次の entry が入らないか、場所を使い切ったか -/
inductive CollectEnd (encoder : DirEncoder) (available slots : Nat) (cs rest : List SwordFsEntry)
    (b : Batch) (it : DirIterator) : Prop
  | ended : b.endOfDirectory = true → rest = [] → b.blocked = none →
      CollectEnd encoder available slots cs rest b it
  | blocked {e rest'} : b.endOfDirectory = false → rest = e :: rest' →
      b.blocked = some (b.currentCookie, encoder.calSpace e (b.currentCookie + 1)) →
      available - b.reserved < encoder.calSpace e (b.currentCookie + 1) →
      CollectEnd encoder available slots cs rest b it
  | filled : b.endOfDirectory = false → b.blocked = none → slots ≤ cs.length →
      it.pendingNext = none → it.position = b.currentCookie →
      CollectEnd encoder available slots cs rest b it

theorem collect_spec :
    ∀ {slots : Nat} {cs rest : List SwordFsEntry} {b : Batch} {it : DirIterator},
      Collected d encoder cookie available cs rest b it → it.pendingNext = none →
      it.position = b.currentCookie → b.endOfDirectory = false → b.blocked = none →
      total ≤ cs.length + slots →
      ∃ r it', collect d.hash encoder available slots b it = some (r, it') ∧ it'.Over d ∧
        it'.misused = it.misused ∧ (∀ e, r = .error e → d.ScanFailure e) ∧
        ∀ b', r = .ok b' → ∃ cs' rest', Collected d encoder cookie available cs' rest' b' it' ∧
          CollectEnd encoder available total cs' rest' b' it' := by
  intro slots
  induction slots with
  | zero =>
    intro cs rest b it h hidle hposn heod hblock htotal
    refine ⟨_, _, rfl, h.held, rfl, nofun, ?_⟩
    rintro b' ⟨⟩
    exact ⟨cs, rest, h, .filled heod hblock htotal hidle hposn⟩
  | succ slots ih =>
    intro cs rest b it h hidle hposn heod hblock htotal
    have hnext : d.entries[it.position]? = rest[0]? := by
      rw [hposn, h.current, ← getElem?_drop, h.cut, getElem?_append_right le_rfl,
        Nat.sub_self]
    obtain ⟨r, it₁, hpeek, hcase⟩ := DirIterator.peek_spec h.held hidle
    rw [collect, hpeek]
    cases hcase with
    | failed hfail hover₁ _ hmis =>
      dsimp only
      rw [if_neg hfail.not_end]
      refine ⟨_, _, rfl, hover₁, hmis, ?_, nofun⟩
      rintro e ⟨⟩
      exact hfail
    | ended hlen hcode hover₁ _ hmis =>
      dsimp only
      rw [if_pos hcode]
      refine ⟨_, _, rfl, hover₁, hmis, nofun, ?_⟩
      rintro b' ⟨⟩
      rw [getElem?_eq_none hlen] at hnext
      have hrest : rest = [] :=
        length_eq_zero_iff.mp (Nat.le_zero.mp (List.getElem?_eq_none_iff.mp hnext.symm))
      exact ⟨cs, rest, ⟨h.cut, h.candidates, h.current, h.reserved, h.fits, hover₁⟩,
        .ended rfl hrest hblock⟩
    | @found entry _ hentry hover₁ hposn₁ hmis hpend =>
      obtain ⟨rest', rfl⟩ : ∃ rest', rest = entry :: rest' := by
        rw [hentry] at hnext
        cases rest with
        | nil => cases hnext
        | cons x rest' => cases hnext; exact ⟨rest', rfl⟩
      dsimp only
      split
      next hbig =>
        refine ⟨_, _, rfl, hover₁, hmis, nofun, ?_⟩
        rintro b' ⟨⟩
        rw [hposn] at hbig ⊢
        exact ⟨cs, entry :: rest', ⟨h.cut, h.candidates, h.current, h.reserved, h.fits, hover₁⟩,
          .blocked heod rfl rfl hbig⟩
      next hsmall =>
        obtain ⟨it₂, hadv⟩ : ∃ it₂, it₁.advance = some it₂ :=
          ⟨_, by rw [DirIterator.advance, hpend]; rfl⟩
        obtain ⟨hover₂, hposn₂, hidle₂, hmis₂⟩ := hover₁.advance hadv
        rw [hadv]
        dsimp only
        have hfits := h.fits
        have hnextBatch : Collected d encoder cookie available (cs ++ [entry]) rest'
            { b with
              candidates := b.candidates ++ [⟨entry, it.position + 1,
                encoder.calSpace entry (it.position + 1)⟩]
              currentCookie := it.position + 1
              reserved := b.reserved + encoder.calSpace entry (it.position + 1) } it₂ := by
          constructor
          case cut =>
            rw [h.cut, append_assoc]
            rfl
          case candidates =>
            rw [direntsFrom_append, ← h.candidates, ← h.current, hposn]
            rfl
          case current =>
            show it.position + 1 = _
            rw [hposn, h.current, length_append]
            rfl
          case reserved =>
            show b.reserved + _ = _
            rw [replySize_append, h.reserved]
            simp [replySize]
          case fits =>
            show b.reserved + _ ≤ available
            omega
          case held => exact hover₂
        obtain ⟨r, it', hrun, hover', hmis', hspec⟩ := ih hnextBatch
          hidle₂ (by rw [hposn₂, hposn₁]) heod hblock
          (by rw [length_append, length_singleton]; omega)
        exact ⟨r, it', hrun, hover', by rw [hmis', hmis₂, hmis], hspec⟩

/-! ## 候補を書く loop -/

theorem encodeBatch_spec (hfits : replySizePlus out + replySize ds ≤ size) :
    encodeBatch inodes size (ds.zip ((ds.map fun c => c.entry.ino).map inodes.find)) out
      = some (.ok (out ++ attach inodes ds)) := by
  induction ds generalizing out with
  | nil =>
    rw [attach, filterMap_nil, append_nil]
    rfl
  | cons c ds ih =>
    have hcons : replySize (c :: ds) = c.required + replySize ds := rfl
    rw [map_cons, map_cons, zip_cons_cons, attach, filterMap_cons]
    cases hf : inodes.find c.entry.ino with
    | none =>
      rw [encodeBatch]
      exact ih (by omega)
    | some inode =>
      have hsize : replySizePlus (out ++ [(c, inodes.applyLive inode)])
          = replySizePlus out + c.required := by
        rw [replySizePlus_append]
        simp [replySizePlus, replySize]
      rw [encodeBatch, if_neg (not_not.mpr (inodes.find_ino hf)), if_neg (by omega), ih (by omega),
        append_assoc]
      rfl

/-! ## 外側の loop -/

/-- 返答の約束 -/
structure PagePlus (d : Directory) (encoder : DirEncoder) (inodes : InodeTable) (off size : Nat)
    (reply : List DirentPlus) : Prop where
  fits : replySizePlus reply ≤ size
  cut : ∃ es rest, d.entries.drop off = es ++ rest ∧
    reply = attach inodes (direntsFrom encoder off es) ∧
    (reply = [] → rest.filter inodes.present = [])

/-- 失敗は HSCAN の失敗か inode の読みの失敗に限る -/
def PlusFailure (d : Directory) (inodes : InodeTable) (e : Status) : Prop :=
  d.ScanFailure e ∨ ∃ n, inodes.fails n = some e

/-- 呼び出しの結末 -/
structure ServedPlus (d : Directory) (encoder : DirEncoder) (inodes : InodeTable) (off size : Nat)
    (misused : Bool) (r : Result (List DirentPlus)) (h : DirHandle) : Prop where
  held : h.iterator.Over d
  misused : h.iterator.misused = misused
  failed : ∀ e, r = .error e → PlusFailure d inodes e
  page : ∀ reply, r = .ok reply → PagePlus d encoder inodes off size reply

section Stop

variable {off size next : Nat} {es rest : List SwordFsEntry}

theorem stopFull_ok (hfit : encoder.Fits d.entries size) (he : e ∈ d.entries)
    (hbig : size - replySizePlus (attach inodes (direntsFrom encoder off es))
      < encoder.calSpace e next) :
    attach inodes (direntsFrom encoder off es) ≠ [] ∧
    stopFull (attach inodes (direntsFrom encoder off es))
      = .ok (attach inodes (direntsFrom encoder off es)) := by
  have hsome : replySizePlus (attach inodes (direntsFrom encoder off es)) ≠ 0 := by
    intro hz
    have := hfit e he next
    omega
  exact ⟨fun hnil => hsome (replySizePlus_attach_eq_zero.mpr hnil), if_neg hsome⟩

end Stop

theorem readDirPlusLoop_spec (hfit : encoder.Fits d.entries size) (hpos : 0 < size) :
    ∀ {fuel : Nat} (es rest : List SwordFsEntry) (h : DirHandle),
      d.entries.drop off = es ++ rest → h.iterator.Over d → h.iterator.pendingNext = none →
      h.iterator.position = off + es.length →
      replySizePlus (attach inodes (direntsFrom encoder off es)) ≤ size → rest.length < fuel →
      ∃ r h', readDirPlusLoop d.hash encoder inodes size fuel
          (attach inodes (direntsFrom encoder off es)) (off + es.length) h = some (r, h') ∧
        ServedPlus d encoder inodes off size h.iterator.misused r h' := by
  intro fuel
  induction fuel with
  | zero => exact fun _ _ _ _ _ _ _ _ hfuel => absurd hfuel (Nat.not_lt_zero _)
  | succ fuel ih =>
    intro es rest h hcut hover hidle hposn hle hfuel
    generalize hout : attach inodes (direntsFrom encoder off es) = out at hle ⊢
    rw [readDirPlusLoop]
    split
    next hroom =>
      have hcut' : d.entries.drop (off + es.length) = [] ++ rest := by
        rw [← drop_drop, hcut, drop_left]
        rfl
      have hstart : Collected d encoder (off + es.length) (size - replySizePlus out) [] rest
          { currentCookie := off + es.length } h.iterator :=
        ⟨hcut', rfl, rfl, rfl, Nat.zero_le _, hover⟩
      obtain ⟨r, it', hcol, hover', hmis, hfail, hspec⟩ :=
        collect_spec hstart hidle hposn rfl rfl (Nat.le_add_left kAttrBatchSize 0)
      rw [hcol]
      cases r with
      | error e =>
        refine ⟨_, _, rfl, hover', hmis, ?_, nofun⟩
        rintro e ⟨⟩
        exact .inl (hfail e rfl)
      | ok b =>
        obtain ⟨cs, rest', hc, hend⟩ := hspec b rfl
        have hsplit : rest = cs ++ rest' := by
          rw [← nil_append rest, ← hcut', hc.cut]
        have hmem : ∀ e ∈ rest', e ∈ d.entries := by
          intro e he
          refine mem_of_mem_drop (hcut ▸ hsplit ▸ ?_ : e ∈ d.entries.drop off)
          exact mem_append_right _ (mem_append_right _ he)
        dsimp only
        split
        next hnone =>
          -- 候補が無いのは、終わりか、最初の entry が入らないときである
          have hcs : cs = [] := direntsFrom_eq_nil.mp (hc.candidates ▸ hnone)
          subst hcs
          have hres : b.reserved = 0 := by rw [hc.reserved, hnone]; rfl
          cases hend with
          | ended _ hrest hb =>
            rw [hb]
            refine ⟨_, _, rfl, hover', hmis, nofun, ?_⟩
            rintro reply ⟨⟩
            exact ⟨hle, es, rest, hcut, hout.symm, fun _ => by rw [hsplit, hrest]; rfl⟩
          | @blocked e _ _ hrest hb hbig =>
            rw [hb]
            rw [hres, Nat.sub_zero] at hbig
            subst hout
            obtain ⟨hne, hstop⟩ := stopFull_ok hfit (hmem e (by rw [hrest]; exact .head _)) hbig
            dsimp only
            rw [hstop]
            refine ⟨_, _, rfl, hover', hmis, nofun, ?_⟩
            rintro reply ⟨⟩
            exact ⟨hle, es, rest, hcut, rfl, fun hnil => absurd hnil hne⟩
          | filled _ _ hslots => exact absurd hslots (by decide)
        next hsome =>
          have hcs : cs ≠ [] := by
            rintro rfl
            exact hsome (by rw [hc.candidates]; rfl)
          have hlen : 0 < cs.length := length_pos_iff.mpr hcs
          rw [InodeTable.getInodes, Nat.add_sub_cancel]
          cases hlookup : inodes.fails h.lookups with
          | some e =>
            refine ⟨_, _, rfl, hover', hmis, ?_, nofun⟩
            rintro e ⟨⟩
            exact .inr ⟨_, hlookup⟩
          | none =>
            have hroom' : replySizePlus out + replySize b.candidates ≤ size := by
              have := hc.fits
              rw [hc.reserved] at this
              omega
            have hout' : out ++ attach inodes b.candidates
                = attach inodes (direntsFrom encoder off (es ++ cs)) := by
              rw [direntsFrom_append, attach_append, hout, hc.candidates]
            have hle' : replySizePlus (attach inodes (direntsFrom encoder off (es ++ cs)))
                ≤ size := by
              rw [← hout', replySizePlus_append]
              exact (Nat.add_le_add_left (replySizePlus_attach_le _) _).trans hroom'
            have hcut'' : d.entries.drop off = (es ++ cs) ++ rest' := by
              rw [hcut, hsplit, append_assoc]
            have hfuel' : rest'.length < fuel := by
              rw [hsplit, length_append] at hfuel
              omega
            have hcookie : b.currentCookie = off + (es ++ cs).length := by
              rw [hc.current, length_append, Nat.add_assoc]
            dsimp only
            rw [encodeBatch_spec hroom', hout']
            dsimp only
            cases hend with
            | ended heod hrest _ =>
              rw [if_pos heod]
              refine ⟨_, _, rfl, hover', hmis, nofun, ?_⟩
              rintro reply ⟨⟩
              exact ⟨hle', _, rest', hcut'', rfl, fun _ => by rw [hrest]; rfl⟩
            | @blocked e _ heod hrest hb hbig =>
              rw [heod, if_neg Bool.false_ne_true, hb]
              dsimp only
              split
              next hstill =>
                obtain ⟨hne, hstop⟩ :=
                  stopFull_ok hfit (hmem e (by rw [hrest]; exact .head _)) hstill
                rw [hstop]
                refine ⟨_, _, rfl, hover', hmis, nofun, ?_⟩
                rintro reply ⟨⟩
                exact ⟨hle', _, rest', hcut'', rfl, fun hnil => absurd hnil hne⟩
              next =>
                -- 空いた場所に入るので、その entry に戻って続ける
                rw [hcookie]
                obtain ⟨r, h', hrun, hserved⟩ :=
                  ih _ _ ⟨it'.seek (off + (es ++ cs).length), h.lookups + 1⟩ hcut'' (hover'.seek _)
                    rfl rfl hle' hfuel'
                exact ⟨r, h', hrun, { hserved with misused := hserved.misused.trans hmis }⟩
            | filled heod hb _ hidle' hposn' =>
              rw [heod, if_neg Bool.false_ne_true, hb]
              dsimp only
              rw [hcookie]
              obtain ⟨r, h', hrun, hserved⟩ :=
                ih _ _ ⟨it', h.lookups + 1⟩ hcut'' hover' hidle' (hposn'.trans hcookie) hle' hfuel'
              exact ⟨r, h', hrun, { hserved with misused := hserved.misused.trans hmis }⟩
    next hfull =>
      refine ⟨_, _, rfl, hover, rfl, nofun, ?_⟩
      rintro reply ⟨⟩
      refine ⟨hle, es, rest, hcut, hout.symm, fun hnil => ?_⟩
      rw [hnil] at hfull
      exact absurd hpos hfull

theorem readDirPlus_spec (inodes : InodeTable) (off : Nat)
    (hfit : encoder.Fits d.entries size) (hover : h.iterator.Over d) :
    ∃ r h', readDirPlus d.hash encoder inodes off size h = some (r, h') ∧
      ServedPlus d encoder inodes off size h.iterator.misused r h' := by
  have hpos : 0 < size :=
    (encoder.calSpace_pos _ 0).trans_le (hfit ⟨".", .dir, d.ino⟩ mem_cons_self 0)
  rw [readDirPlus, if_neg hpos.ne']
  have hlen : (d.entries.drop off).length
      < h.iterator.prefixEntries.length + d.hash.items.length + 1 := by
    rw [length_drop, Directory.entries, length_append, length_map, hover.dots]
    omega
  exact readDirPlusLoop_spec hfit hpos [] _ ⟨h.iterator.seek off, h.lookups⟩
    (nil_append _).symm (hover.seek off) rfl rfl (Nat.zero_le _) hlen

/-! ## 呼び直し -/

/-- 最後に返った offset から `ReadDirPlus` を呼び直す利用者 -/
structure PagerPlus where
  handle : DirHandle
  off : Nat := 0
  received : List DirentPlus := []
  served : Nat := 0
deriving DecidableEq

def PagerPlus.call (hash : DirHash) (encoder : DirEncoder) (inodes : InodeTable) (p : PagerPlus)
    (size : Nat) : PagerPlus :=
  match readDirPlus hash encoder inodes p.off size p.handle with
  | none => p
  | some (.error _, h) => { p with handle := h }
  | some (.ok reply, h) =>
    { handle := h, off := resumeAt p.off (reply.map Prod.fst), received := p.received ++ reply,
      served := p.served + 1 }

/-- 受け取った record は、今の位置までの entry のうち inode のあるもののもの -/
structure PagingPlus (d : Directory) (encoder : DirEncoder) (inodes : InodeTable) (p : PagerPlus) :
    Prop where
  held : p.handle.iterator.Over d
  misused : p.handle.iterator.misused = false
  off_le : p.off ≤ d.entries.length
  received : p.received = attach inodes (direntsFrom encoder 0 (d.entries.take p.off))
  progress : p.served ≤ p.off ∨ (d.entries.drop p.off).filter inodes.present = []

variable {p : PagerPlus}

section

variable (h : PagingPlus d encoder inodes p)
include h

theorem PagingPlus.entries :
    p.received.map (fun c => c.1.entry) = (d.entries.take p.off).filter inodes.present := by
  rw [h.received, map_entry_attach]

theorem PagingPlus.reply {reply : List DirentPlus}
    (hpage : PagePlus d encoder inodes p.off size reply) :
    resumeAt p.off (reply.map Prod.fst) ≤ d.entries.length ∧
    p.received ++ reply = attach inodes (direntsFrom encoder 0
      (d.entries.take (resumeAt p.off (reply.map Prod.fst)))) ∧
    (reply = [] ↔ (d.entries.drop p.off).filter inodes.present = []) ∧
    (reply ≠ [] → p.off < resumeAt p.off (reply.map Prod.fst)) ∧
    (reply = [] → resumeAt p.off (reply.map Prod.fst) = p.off) := by
  obtain ⟨-, es, rest, hcut, hreply, hnone⟩ := hpage
  obtain ⟨es₁, es₂, rfl, hoff, hmiss, hnil⟩ :=
    resumeAt_attach encoder inodes p.off es
  rw [← hreply] at hoff
  have hlen := congrArg List.length hcut
  rw [length_drop, length_append, length_append] at hlen
  have hle := h.off_le
  have hreply₁ : reply = attach inodes (direntsFrom encoder p.off es₁) := by
    rw [hreply, direntsFrom_append, attach_append, attach_eq_nil.mpr hmiss, append_nil]
  refine ⟨by omega, ?_, ⟨fun hr => ?_, fun hr => ?_⟩, fun hr => ?_, fun hr => by rw [hr]; rfl⟩
  · have htake : d.entries.take (p.off + es₁.length) = d.entries.take p.off ++ es₁ := by
      rw [take_add, hcut, append_assoc, take_left]
    rw [h.received, hoff, htake, direntsFrom_append, attach_append, Nat.zero_add,
      length_take_of_le hle, hreply₁]
  · rw [hcut, filter_append, hnone hr, append_nil]
    exact attach_eq_nil.mp (hreply.symm.trans hr)
  · rw [hcut, filter_append, append_eq_nil_iff] at hr
    rw [hreply]
    exact attach_eq_nil.mpr hr.1
  · have hsome : es₁ ≠ [] := fun hes => hr (hreply.trans (attach_eq_nil.mpr (hnil hes)))
    have := length_pos_iff.mpr hsome
    omega

theorem PagingPlus.call (hfit : encoder.Fits d.entries size) :
    PagingPlus d encoder inodes (p.call d.hash encoder inodes size) := by
  obtain ⟨r, h', hcall, hserved⟩ := readDirPlus_spec inodes p.off hfit h.held
  have hmis := hserved.misused.trans h.misused
  rw [PagerPlus.call, hcall]
  cases r with
  | error e => exact { h with held := hserved.held, misused := hmis }
  | ok reply =>
    obtain ⟨hle, hreceived, hnil, hmove, hstay⟩ := h.reply (hserved.page reply rfl)
    refine ⟨hserved.held, hmis, hle, hreceived, ?_⟩
    by_cases hr : reply = []
    · right
      show (d.entries.drop (resumeAt p.off _)).filter inodes.present = []
      rw [hstay hr]
      exact hnil.mp hr
    · left
      have hserve := h.progress.resolve_right fun hend => hr (hnil.mpr hend)
      exact (Nat.succ_le_succ hserve).trans (hmove hr)

theorem PagingPlus.calls {sizes : List Nat} (hfit : ∀ size ∈ sizes, encoder.Fits d.entries size) :
    PagingPlus d encoder inodes (sizes.foldl (PagerPlus.call d.hash encoder inodes) p) := by
  induction sizes generalizing p with
  | nil => exact h
  | cons size sizes ih =>
    exact ih (h.call (hfit size mem_cons_self))
      fun size' hmem => hfit size' (mem_cons_of_mem _ hmem)

end

/--
変わらない directory を `ReadDirPlus` で読み進めると、受け取る entry は、列のうち inode のあるものが
順に一度ずつである。返答は buffer に収まり、空の返答は求めた位置から先に inode のある entry が無いときに
限る。iterator が誤って使われることも `CHECK` が破れることも無い。
-/
theorem read_dir_plus_exact (d : Directory) (encoder : DirEncoder) (inodes : InodeTable)
    (sizes : List Nat) (size : Nat) (hfit : ∀ s ∈ size :: sizes, encoder.Fits d.entries s) :
    let p := sizes.foldl (PagerPlus.call d.hash encoder inodes) { handle := { iterator := d.openDir } }
    p.received.map (fun c => c.1.entry) = (d.entries.take p.off).filter inodes.present ∧
    (d.entries.length < p.served →
      p.received.map (fun c => c.1.entry) = d.entries.filter inodes.present) ∧
    ∃ r h', readDirPlus d.hash encoder inodes p.off size p.handle = some (r, h') ∧
      h'.iterator.misused = false ∧ (∀ e, r = .error e → PlusFailure d inodes e) ∧
      ∀ reply, r = .ok reply → replySizePlus reply ≤ size ∧
        (p.received ++ reply).map (fun c => c.1.entry)
          = (d.entries.take (resumeAt p.off (reply.map Prod.fst))).filter inodes.present ∧
        (reply = [] → (d.entries.drop p.off).filter inodes.present = [] ∧
          p.received.map (fun c => c.1.entry) = d.entries.filter inodes.present) := by
  intro p
  have hp : PagingPlus d encoder inodes p := by
    refine PagingPlus.calls ?_ fun s hs => hfit s (mem_cons_of_mem _ hs)
    exact ⟨DirIterator.over_openDir d, rfl, Nat.zero_le _, rfl, .inl le_rfl⟩
  -- 先に inode のある entry が無ければ、受け取ったものがすべてである
  have hall : (d.entries.drop p.off).filter inodes.present = [] →
      p.received.map (fun c => c.1.entry) = d.entries.filter inodes.present := by
    intro hend
    rw [hp.entries, ← append_nil ((d.entries.take p.off).filter _), ← hend,
      ← filter_append, take_append_drop]
  refine ⟨hp.entries, fun hmany => ?_, ?_⟩
  · refine hall (hp.progress.resolve_left fun hle => ?_)
    have := hp.off_le
    omega
  · obtain ⟨r, h', hcall, hserved⟩ :=
      readDirPlus_spec inodes p.off (hfit size mem_cons_self) hp.held
    refine ⟨r, h', hcall, hserved.misused.trans hp.misused, hserved.failed, fun reply hr => ?_⟩
    have hpage := hserved.page reply hr
    obtain ⟨-, hreceived, hnil, -, -⟩ := hp.reply hpage
    refine ⟨hpage.fits, by rw [hreceived, map_entry_attach], fun hempty => ?_⟩
    exact ⟨hnil.mp hempty, hall (hnil.mp hempty)⟩

def sampleInodes : InodeTable where
  find ino := if ino = 5 then none else some { ino := ino, attr := SwordFsAttr.create 0 0 0 0 }
  find_ino := by
    intro ino inode h
    split at h
    · cases h
    · cases h
      rfl
  fails _ := none
  applyLive inode := inode

/-- 大きさの違う二回の呼び出しの後の三回目。inode の無い entry を飛ばして、最後の entry を返す -/
theorem read_dir_plus_exact_sample :
    let d := sampleDirectory
    let p := [32, 40].foldl (PagerPlus.call d.hash sampleEncoder sampleInodes)
      { handle := { iterator := d.openDir } }
    p.received.map (fun c => c.1.entry) = d.entries.take 2 ∧
    ∃ r h', readDirPlus d.hash sampleEncoder sampleInodes p.off 100 p.handle = some (r, h') ∧
      ∀ reply, r = .ok reply → replySizePlus reply ≤ 100 ∧ reply ≠ [] := by
  intro d p
  obtain ⟨hreceived, -, r, h', hcall, -, -, hok⟩ :=
    read_dir_plus_exact d sampleEncoder sampleInodes [32, 40] 100
      fun s hs => sampleEncoder_fits (by revert s; decide)
  have hoff : p.off = 2 := by decide +kernel
  refine ⟨(hoff ▸ hreceived).trans (by decide), r, h', hcall, fun reply hr => ?_⟩
  obtain ⟨hfits, -, hend⟩ := hok reply hr
  refine ⟨hfits, fun hnil => ?_⟩
  have hleft : (d.entries.drop p.off).filter sampleInodes.present = [] := (hend hnil).1
  rw [hoff] at hleft
  exact absurd hleft (by decide)

end SwordFS.Vfs
