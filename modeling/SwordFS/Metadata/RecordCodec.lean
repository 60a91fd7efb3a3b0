import SwordFS.Infra.Codec
import SwordFS.Metadata.Types

/-!
# 永続する record の形式

`BufEncoder` と `BufDecoder` で書かれる record。整数は little endian で、符号つきの整数は二の補数の
bit で、文字列は byte の列で表す。`BufDecoder` の失敗は消えないので、読みは最初の失敗で終わるとしてよい。
-/

namespace SwordFS.Metadata

open Infra Codec

def u32 : Codec Nat := le 4
def u64 : Codec Nat := le 8

/-- `String`。長さが残りを越えれば読まない -/
def string : Codec Bytes := counted bytes id

inductive RecordType where
  | volume | inode | entry | reclaim | pendingDelete
deriving DecidableEq

def RecordType.code : RecordType → Nat
  | .volume => 1
  | .inode => 2
  | .entry => 3
  | .reclaim => 5
  | .pendingDelete => 6

/-- 文字列 SWFSMETA -/
def kMagic : Bytes := [0x53, 0x57, 0x46, 0x53, 0x4D, 0x45, 0x54, 0x41]

def kSchemaVersion : Nat := 1

/-- `Header` -/
def header (t : RecordType) : Codec Unit :=
  (string.seq fun _ => u32.seq fun _ => u32).expect (kMagic, kSchemaVersion, t.code)

/-- 秒と nanosecond。負の nanosecond は二の補数では `10 ^ 9` を越える -/
def time : Codec (Nat × Nat) := (u64.seq fun _ => u64).restrict (·.2 < 10 ^ 9)

/-- `SwordFsAttr` の全ての field -/
structure AttrRecord where
  (dev ino mode nlink uid gid rdev size blksize blocks : Nat)
  (atime mtime ctime btime : Nat × Nat)
  inodeFlags : Nat

/-- `Attr`。flag は `kSupportedInodeFlagBits` の二つだけである -/
def attr : Codec AttrRecord :=
  (u64.seq fun _ => u64.seq fun _ => u32.seq fun _ => u64.seq fun _ => u64.seq fun _ =>
    u64.seq fun _ => u64.seq fun _ => u64.seq fun _ => u64.seq fun _ => u64.seq fun _ =>
    time.seq fun _ => time.seq fun _ => time.seq fun _ => time.seq fun _ =>
    u32.restrict (· < 4)).map
    (fun ⟨dev, ino, mode, nlink, uid, gid, rdev, size, blksize, blocks, a, m, c, b, flags⟩ =>
      ⟨dev, ino, mode, nlink, uid, gid, rdev, size, blksize, blocks, a, m, c, b, flags⟩)
    (fun x => (x.dev, x.ino, x.mode, x.nlink, x.uid, x.gid, x.rdev, x.size, x.blksize, x.blocks,
      x.atime, x.mtime, x.ctime, x.btime, x.inodeFlags))
    (fun _ => rfl) fun _ _ => rfl

structure InodeRecord where
  ino : Nat
  attr : AttrRecord
  parentIno : Nat
  symlinkTarget : Bytes
  /-- 書かれた順の名前と値 -/
  xattrs : List (Bytes × Bytes)

structure VolumeRecord where
  (name storage bucket region : Bytes)
  (chunkSize chunkType enablePosixAcl : Nat)

/-- record の種別ごとの中身 -/
abbrev Payload : RecordType → Type
  | .volume => VolumeRecord
  | .inode => InodeRecord
  | .entry => Bytes × Nat × Nat
  | .reclaim => Nat × Bytes
  | .pendingDelete => Bytes × Bytes

/-- `SwordFsInode` の header より後ろ -/
def inodeBody : Codec InodeRecord :=
  ((u64.seq fun _ => attr.seq fun _ => u64.seq fun _ => string.seq fun _ =>
    counted (string.seq fun _ => string).many And.left).map
    (fun ⟨ino, a, parent, target, xs⟩ => InodeRecord.mk ino a parent target xs)
    (fun x => (x.ino, x.attr, x.parentIno, x.symlinkTarget, x.xattrs)) (fun _ => rfl)
    fun _ _ => rfl).restrict fun x =>
      x.ino ≠ 0 ∧ x.attr.ino = x.ino ∧ [] ∉ x.xattrs.map Prod.fst ∧ (x.xattrs.map Prod.fst).Nodup

def volumeBody : Codec VolumeRecord :=
  ((string.seq fun _ => string.seq fun _ => string.seq fun _ => string.seq fun _ =>
    u64.seq fun _ => u32.seq fun _ => u32).map
    (fun ⟨name, storage, bucket, region, size, type, acl⟩ =>
      VolumeRecord.mk name storage bucket region size type acl)
    (fun x => (x.name, x.storage, x.bucket, x.region, x.chunkSize, x.chunkType, x.enablePosixAcl))
    (fun _ => rfl) fun _ _ => rfl).restrict fun x =>
      x.name ≠ [] ∧ x.chunkSize ≠ 0 ∧ x.chunkType ∈ [1, 2, 3] ∧ x.enablePosixAcl ≤ 1 ∧
        (x.storage = [] ↔ x.bucket = [])

/-- header より後ろの形式と、`ParseFrom` の検査 -/
def body : (t : RecordType) → Codec (Payload t)
  | .volume => volumeBody
  | .inode => inodeBody
  | .entry => (string.seq fun _ => u32.seq fun _ => u64).restrict fun x => x.1 ≠ [] ∧ x.2.2 ≠ 0
  | .reclaim => (u64.seq fun _ => string).restrict fun x => x.1 ≠ 0 ∧ x.2 ≠ []
  | .pendingDelete => (string.seq fun _ => string).restrict fun x => x.1 ≠ [] ∧ x.2 ≠ []

def record (t : RecordType) : Codec (Payload t) :=
  ((header t).seq fun _ => body t).map Prod.snd (fun x => ((), x)) (fun _ => rfl) fun _ _ => rfl

/-- `SerializeTo` が書く前に確かめること -/
def writable : (t : RecordType) → Payload t → Bool
  | .volume, _ => true
  | .inode, x => x.ino ≠ 0
  | .entry, x => x.1 ≠ [] ∧ x.2.2 ≠ 0
  | .reclaim, x => x.1 ≠ 0 ∧ x.2 ≠ []
  | .pendingDelete, x => x.1 ≠ [] ∧ x.2 ≠ []

/-- `SerializeTo` -/
def serializeTo {t : RecordType} (x : Payload t) : Option Bytes :=
  if writable t x then some ((record t).encode x) else none

/-- 読んだ xattr は `std::map` に入り、名前の順になる -/
def emplace : (t : RecordType) → Payload t → Payload t
  | .inode, x => { x with xattrs := x.xattrs.mergeSort fun a b => a.1 ≤ b.1 }
  | .volume, x => x
  | .entry, x => x
  | .reclaim, x => x
  | .pendingDelete, x => x

/-- `ParseFrom` -/
def parseFrom (t : RecordType) (data : Bytes) : Option (Payload t) :=
  ((record t).parse data).map (emplace t)

/-! ## 形式は曖昧でない -/

theorem RecordType.code_injective : ∀ {t t' : RecordType}, t.code = t'.code → t = t' := by
  intro t t' h
  cases t <;> cases t' <;> first | rfl | cases h

theorem valid_emplace (x : Payload t) : (record t).Valid (emplace t x) ↔ (record t).Valid x := by
  cases t with
  | inode =>
    have hp := x.xattrs.mergeSort_perm fun a b => a.1 ≤ b.1
    have hn := hp.map Prod.fst
    simp only [record, body, inodeBody, emplace, Codec.map, Codec.seq, restrict, counted, many,
      hp.length_eq, hp.mem_iff, hn.mem_iff, hn.nodup_iff]
  | _ => rfl

theorem writable_of_valid (h : (record t).Valid x) : writable t x = true := by
  cases t with
  | volume => rfl
  | inode => exact decide_eq_true h.2.2.1
  | _ => exact decide_eq_true h.2.2

theorem serializeTo_eq_some
    (h : (record t).Valid x) : serializeTo x = some data ↔ data = (record t).encode x := by
  rw [serializeTo, if_pos (writable_of_valid h), Option.some_inj, eq_comm]

theorem type_of_append (hx : (record t).Valid x) (hx' : (record t').Valid x')
    (h : (record t).encode x ++ r = (record t').encode x' ++ s) : t = t' := by
  simp only [record, Codec.map, Codec.seq, List.append_assoc] at h
  exact RecordType.code_injective (congrArg (·.2.2) (eq_of_append _ hx.1.1 hx'.1.1 h).1)

/--
どの種別でも、`ParseFrom` は `SerializeTo` の書いた列だけを、xattr の順を除いて書いた値として読む。

書いた列の途中まで、あるいは書いた列の後に続きのある列は、どの種別の `ParseFrom` も受け付けず、
種別の違う record も受け付けない。
-/
theorem record_format_exact (t : RecordType) (data : Bytes) :
    (∀ x, parseFrom t data = some x ↔
      (record t).Valid x ∧ ∃ y, emplace t y = x ∧ serializeTo y = some data) ∧
    ∀ {t' : RecordType} (x : Payload t') (written : Bytes), (record t').Valid x →
      serializeTo x = some written → (data <+: written ∨ written <+: data) →
      parseFrom t data ≠ none → t = t' ∧ data = written := by
  have hparse (x : Payload t) : parseFrom t data = some x ↔
      ∃ y, emplace t y = x ∧ (record t).Valid y ∧ data = (record t).encode y := by
    simp only [parseFrom, Option.map_eq_some_iff, parse_eq_some_iff, and_comm]
  refine ⟨fun x => ?_, fun {t'} x written hx hw hpre hsome => ?_⟩
  · rw [hparse]
    constructor
    · rintro ⟨y, rfl, hy, hdata⟩
      exact ⟨(valid_emplace y).mpr hy, y, rfl, (serializeTo_eq_some hy).mpr hdata⟩
    · rintro ⟨hx, y, rfl, hdata⟩
      have hy := (valid_emplace y).mp hx
      exact ⟨y, rfl, hy, (serializeTo_eq_some hy).mp hdata⟩
  · obtain ⟨x', hx'⟩ := Option.ne_none_iff_exists'.mp hsome
    obtain ⟨y, -, hy, rfl⟩ := (hparse x').mp hx'
    obtain rfl := (serializeTo_eq_some hx).mp hw
    -- どちらが先に終わっても、続きを補えば二つの書いた列が重なる
    obtain ⟨r, s, h⟩ : ∃ r s, (record t).encode y ++ r = (record t').encode x ++ s := by
      rcases hpre with ⟨r, h⟩ | ⟨s, h⟩
      · exact ⟨r, [], h.trans (List.append_nil _).symm⟩
      · exact ⟨[], s, (List.append_nil _).trans h.symm⟩
    obtain rfl := type_of_append hy hx h
    exact ⟨rfl, congrArg (record t).encode (eq_of_append _ hy hx h).1⟩

end SwordFS.Metadata
