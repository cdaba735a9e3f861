import Pegasos2.AmigaFfs
import Pegasos2.ExfatAddresses
import Pegasos2.VolumeImage

namespace Pegasos2.Fs
open Program
open PartitionPkg (Agree)
set_option autoImplicit true

namespace Ffs

/-- Block `n` of the partition. -/
def Volume.block (v : Volume) (image : Nat → UInt8) (n : Nat) : Buf := fun j =>
  image (u64 (v.partLoc + n * v.bsize) + j)

/-- The number of slots from `DB_HIGH_OFF` down to `HT_OFFSET`. -/
def slots (bsize : Nat) : Nat := (bsize - 204 - htOffset) / 4 + 1

/-- Slot `i` of a header or extension block. -/
def pointer (bsize : Nat) (hdr : Buf) (i : Nat) : Nat := be32 hdr (dbHighOff bsize - i * 4)

/-- The block sizes of the file system. -/
def BlockSize (bsize : Nat) : Prop :=
  bsize = 512 ∨ bsize = 1024 ∨ bsize = 2048 ∨ bsize = 4096

theorem BlockSize.le {bsize : Nat} (h : BlockSize bsize) : 512 ≤ bsize := by
  obtain h | h | h | h := h <;> rw [h] <;> decide

/-- The pointers `ptrs` fill the slots of a table from the first one on. The others are zero. -/
structure Table (bsize : Nat) (hdr : Buf) (ptrs : List Nat) : Prop where
  len : ptrs.length ≤ slots bsize
  slot : ∀ i < ptrs.length, pointer bsize hdr i = ptrs.getD i 0
  pos : ∀ p ∈ ptrs, p ≠ 0
  rest : ∀ i, ptrs.length ≤ i → i < slots bsize → pointer bsize hdr i = 0

/-- The pointers of the tables of a file, from the table `hdr` on: all tables but the last one are
full. -/
inductive Chain (v : Volume) (image : Nat → UInt8) : Buf → List Nat → Prop where
  | last (h : Table v.bsize hdr ptrs) (hext : be32 hdr (offExtension v.bsize) = 0) :
    Chain v image hdr ptrs
  | next (h : Table v.bsize hdr ptrs) (hfull : ptrs.length = slots v.bsize)
      (hext : be32 hdr (offExtension v.bsize) ≠ 0)
      (hlist : be32 (v.block image (be32 hdr (offExtension v.bsize))) 0 = tList)
      (rest : Chain v image (v.block image (be32 hdr (offExtension v.bsize))) more)
      (hmore : more ≠ []) : Chain v image hdr (ptrs ++ more)

/-- The number of bytes of a data block that belong to the file, and what is in front of them. -/
def Volume.dataSize (v : Volume) : Nat := if v.isFfs then v.bsize else v.bsize - 0x18

def Volume.dataOff (v : Volume) : Nat := if v.isFfs then 0 else 0x18

/-- A file with the header `hdr` and the data blocks `ptrs`, all of them full but the last one. -/
structure File (v : Volume) (image : Nat → UInt8) (hdr : Buf) (ptrs : List Nat) (byteSize : Nat) :
    Prop where
  chain : Chain v image hdr ptrs
  size : be32 hdr (offByteSize v.bsize) = byteSize
  blocks : ∀ k, k * v.dataSize < byteSize ↔ k < ptrs.length
  data : v.isFfs = false → ∀ k < ptrs.length,
    be32 (v.block image (ptrs.getD k 0)) 0 = tData ∧
      be32 (v.block image (ptrs.getD k 0)) 0x0C = min v.dataSize (byteSize - k * v.dataSize)

/-- The payloads of the data blocks in their order. -/
def Volume.fileByte (v : Volume) (image : Nat → UInt8) (ptrs : List Nat) : Buf := fun j =>
  v.block image (ptrs.getD (j / v.dataSize) 0) (v.dataOff + j % v.dataSize)

section Contents

variable {v : Volume} {d : ImageDisk} (hd : d.Reads) (hsize : BlockSize v.bsize) (stack : Buf)

theorem readBlock_reads (hd : d.Reads) (n : Nat) (buf : Buf) :
    Prog.Yields (v.readBlock d.toDisk n buf) fun x =>
      x.1 = .noError ∧ Agree v.bsize x.2 (v.block d.image n) :=
  hd.filesysReadBytes _ _ buf

theorem pointer_congr {bsize : Nat} {b hdr : Buf} (h : Agree bsize b hdr)
    (hbsize : BlockSize bsize) (i : Nat) : pointer bsize b i = pointer bsize hdr i := by
  have hle := hbsize.le
  have hhigh : bsize - 204 + 4 ≤ bsize := by omega
  exact h.be32 (Nat.le_trans (Nat.add_le_add_right (Nat.sub_le _ _) 4) hhigh)

theorem field_congr {bsize k : Nat} (h : Agree bsize b hdr) (hle : 512 ≤ bsize) (hk : 4 ≤ k)
    (hmax : k ≤ 512) : be32 b (bsize - k) = be32 hdr (bsize - k) := by
  have hend : bsize - k + 4 ≤ bsize - k + k := Nat.add_le_add_left hk _
  have hk' : k ≤ bsize := Nat.le_trans hmax hle
  exact h.be32 (Nat.le_trans hend (Nat.le_of_eq (Nat.sub_add_cancel hk')))

theorem extension_congr {bsize : Nat} (h : Agree bsize b hdr) (hbsize : BlockSize bsize) :
    be32 b (offExtension bsize) = be32 hdr (offExtension bsize) :=
  field_congr h hbsize.le (by decide) (by decide)

/-- The loop over the slots stops one slot short of the end of the table. -/
theorem dbMax_succ {bsize : Nat} (hsize : BlockSize bsize) : dbMax bsize + 1 = slots bsize := by
  rw [dbMax, slots, htOffset]
  obtain rfl | rfl | rfl | rfl := hsize <;> rfl

theorem payload_le (v : Volume) (h : payload v dblk = some (data, len)) : len ≤ v.dataSize := by
  rw [payload] at h
  rw [Volume.dataSize]
  split_ifs at h ⊢
  · obtain ⟨-, rfl⟩ := Prod.mk.injEq _ _ _ _ ▸ Option.some.inj h
    exact Nat.le_refl _
  · obtain ⟨-, rfl⟩ := Prod.mk.injEq _ _ _ _ ▸ Option.some.inj h
    exact Nat.min_le_right _ _

theorem dataSize_pos (v : Volume) (hsize : BlockSize v.bsize) : 0 < v.dataSize := by
  have hle := hsize.le
  rw [Volume.dataSize]
  split_ifs <;> omega

theorem Chain.single (hchain : Chain v image hdr ptrs) (hsize : BlockSize v.bsize)
    (hlen : ptrs.length ≤ dbMax v.bsize) :
    Table v.bsize hdr ptrs ∧ be32 hdr (offExtension v.bsize) = 0 := by
  have hslots := dbMax_succ hsize
  cases hchain with
  | last htable hext => exact ⟨htable, hext⟩
  | next _ hfull _ _ _ _ =>
    rw [List.length_append] at hlen
    omega

include hd hsize

/-- The loop over the slots reads no more blocks than the table has, nor than `DB_MAX`. -/
theorem table_bound (h : Agree v.bsize b hdr) (htable : Table v.bsize hdr ptrs) (toRead : Nat)
    (c : Copied) :
    Prog.Yields (.loop (tableRound d.toDisk stack v toRead b) (0, c)) fun y =>
      y.2.written ≤ c.written + min ptrs.length (dbMax v.bsize) * v.dataSize := by
  apply Prog.Yields.loop
    (fun s => s.1 ≤ min ptrs.length (dbMax v.bsize) ∧ s.2.written ≤ c.written + s.1 * v.dataSize)
    (fun s => dbMax v.bsize - s.1)
  · rintro ⟨i, c'⟩ ⟨hi, hwritten⟩
    dsimp only at hi hwritten
    have hmul : i * v.dataSize ≤ min ptrs.length (dbMax v.bsize) * v.dataSize :=
      Nat.mul_le_mul_right _ hi
    have hbound : c'.written ≤ c.written + min ptrs.length (dbMax v.bsize) * v.dataSize :=
      Nat.le_trans hwritten (Nat.add_le_add_left hmul _)
    have hslots := dbMax_succ hsize
    rw [tableRound]
    split_ifs with hmore hzero
    · exact Prog.Yields.pure hbound
    · have hlt : i < dbMax v.bsize := hmore.1
      have hslot := pointer_congr h hsize i
      have hlen : i < ptrs.length := by
        by_contra hge
        apply hzero
        exact hslot.trans (htable.rest i (by omega) (by omega))
      apply Prog.Yields.bind (readBlock_reads hd _ stack)
      rintro ⟨ret, dblk⟩ -
      apply Prog.Yields.pure
      rw [tableNext]
      split_ifs
      · exact hbound
      · cases hpayload : payload v dblk with
        | none => exact hbound
        | some x =>
          obtain ⟨data, len⟩ := x
          have hle := payload_le v hpayload
          have hsucc : (i + 1) * v.dataSize = i * v.dataSize + v.dataSize := Nat.succ_mul _ _
          refine ⟨⟨by omega, ?_⟩, Nat.sub_succ_lt_self _ _ hlt⟩
          rw [Copied.append]
          dsimp only
          omega
    · exact Prog.Yields.pure hbound
  · refine ⟨Nat.zero_le _, ?_⟩
    rw [Nat.zero_mul, Nat.add_zero]

theorem chain_bound (hchain : Chain v d.image hdr ptrs) (h : Agree v.bsize b hdr) (toRead : Nat)
    (c : Copied) (scratch : Buf) :
    Prog.Yields (.loop (tablesRound d.toDisk stack v toRead) ⟨b, c, scratch⟩) fun y =>
      y.2.written ≤ c.written +
        (if ptrs.length ≤ dbMax v.bsize then ptrs.length else ptrs.length - 1) * v.dataSize := by
  have hslots := dbMax_succ hsize
  induction hchain generalizing b c scratch with
  | @last hdr ptrs htable hext =>
    have hlen := htable.len
    have hmin : min ptrs.length (dbMax v.bsize) =
        if ptrs.length ≤ dbMax v.bsize then ptrs.length else ptrs.length - 1 := by
      split_ifs <;> omega
    rw [← hmin]
    apply Prog.Yields.loop_unfold
    rw [tablesRound]
    split_ifs
    · apply Prog.Yields.bind (table_bound hd hsize stack h htable toRead c)
      rintro ⟨e, c'⟩ hc'
      cases e with
      | error ret => exact Prog.Yields.pure hc'
      | done => exact Prog.Yields.pure hc'
      | more =>
        show Prog.Yields (tablesNext d.toDisk v toRead ⟨b, c, scratch⟩ c' .more) _
        rw [tablesNext, if_pos (.inl ((extension_congr h hsize).trans hext))]
        exact Prog.Yields.pure hc'
    · exact Prog.Yields.pure (Nat.le_add_right _ _)
  | @next hdr ptrs more htable hfull hext hlist rest hmore ih =>
    have hpos := List.length_pos_iff.2 hmore
    have hmin : min ptrs.length (dbMax v.bsize) = dbMax v.bsize := by omega
    have hmul : (if more.length ≤ dbMax v.bsize then more.length else more.length - 1) *
        v.dataSize ≤ more.length * v.dataSize := by
      apply Nat.mul_le_mul_right
      split_ifs <;> omega
    have hall : (if (ptrs ++ more).length ≤ dbMax v.bsize then (ptrs ++ more).length
        else (ptrs ++ more).length - 1) * v.dataSize =
          dbMax v.bsize * v.dataSize + more.length * v.dataSize := by
      rw [List.length_append, if_neg (by omega), ← Nat.add_mul]
      congr 1
      omega
    rw [hall]
    apply Prog.Yields.loop_unfold
    rw [tablesRound]
    split_ifs
    · apply Prog.Yields.bind (table_bound hd hsize stack h htable toRead c)
      rintro ⟨e, c'⟩ hc'
      rw [hmin] at hc'
      dsimp only at hc'
      have hdone : c'.written ≤ c.written +
          (dbMax v.bsize * v.dataSize + more.length * v.dataSize) := by omega
      cases e with
      | error ret => exact Prog.Yields.pure hdone
      | done => exact Prog.Yields.pure hdone
      | more =>
        show Prog.Yields (tablesNext d.toDisk v toRead ⟨b, c, scratch⟩ c' .more) _
        rw [tablesNext]
        split_ifs
        · exact Prog.Yields.pure hdone
        · apply Prog.Yields.bind (readBlock_reads hd _ scratch)
          rintro ⟨ret, next⟩ ⟨-, hnext⟩
          apply Prog.Yields.pure
          split_ifs
          · exact hdone
          · exact hdone
          · rw [extension_congr h hsize] at hnext
            apply (ih hnext c' next).mono
            intro y hy
            omega
    · exact Prog.Yields.pure (Nat.le_add_right _ _)

omit hd

theorem fileByte_block (image : Nat → UInt8) (ptrs : List Nat) (k : Nat) (hj : j < v.dataSize) :
    v.fileByte image ptrs (k * v.dataSize + j) =
      v.block image (ptrs.getD k 0) (v.dataOff + j) := by
  have hpos := dataSize_pos v hsize
  rw [Volume.fileByte, Nat.add_comm (k * v.dataSize), Nat.add_mul_div_right _ _ hpos,
    Nat.div_eq_of_lt hj, Nat.zero_add, Nat.add_mul_mod_self_right, Nat.mod_eq_of_lt hj]

theorem payload_reads {image : Nat → UInt8} (hfile : File v image hdr ptrs byteSize)
    (hk : k < ptrs.length) (hb : Agree v.bsize dblk (v.block image (ptrs.getD k 0))) :
    ∃ data len, payload v dblk = some (data, len) ∧
      min (k * v.dataSize + len) byteSize = min ((k + 1) * v.dataSize) byteSize ∧
      ∀ j < len, data j = v.fileByte image ptrs (k * v.dataSize + j) := by
  have hle := hsize.le
  have hsucc : (k + 1) * v.dataSize = k * v.dataSize + v.dataSize := Nat.succ_mul _ _
  rw [payload]
  cases hffs : v.isFfs with
  | true =>
    have hds : v.dataSize = v.bsize := if_pos hffs
    have hoff : v.dataOff = 0 := if_pos hffs
    refine ⟨dblk, v.bsize, if_pos rfl, ?_, fun j hj => ?_⟩
    · rw [hsucc, hds]
    · rw [fileByte_block hsize image ptrs k (by rw [hds]; exact hj), hoff, Nat.zero_add]
      exact hb j hj
  | false =>
    have hnot : ¬ v.isFfs = true := by rw [hffs]; exact Bool.false_ne_true
    have hds : v.dataSize = v.bsize - 0x18 := if_neg hnot
    have hoff : v.dataOff = 0x18 := if_neg hnot
    obtain ⟨htype, hlen⟩ := hfile.data hffs k hk
    have htypeEnd : 0 + 4 ≤ v.bsize := Nat.le_trans (by decide) hle
    have hlenEnd : 0x0C + 4 ≤ v.bsize := Nat.le_trans (by decide) hle
    rw [← hb.be32 htypeEnd] at htype
    rw [← hb.be32 hlenEnd] at hlen
    have hlt := (hfile.blocks k).2 hk
    have hmin : min (be32 dblk 0x0C) (v.bsize - 0x18) =
        min v.dataSize (byteSize - k * v.dataSize) := by
      rw [hlen, hds, Nat.min_comm, ← Nat.min_assoc, Nat.min_self]
    rw [if_neg Bool.false_ne_true, if_neg fun hne => hne htype, hmin]
    clear htype hlen hmin
    refine ⟨_, _, rfl, ?_, fun j hj => ?_⟩
    · omega
    · have hjlt : j < v.dataSize := Nat.lt_of_lt_of_le hj (Nat.min_le_left _ _)
      rw [fileByte_block hsize image ptrs k hjlt, hoff]
      exact hb _ (by omega)

include hd

/-- A file whose blocks are in the first slots of its header is read to its end. -/
theorem table_fills (hfile : File v d.image hdr ptrs byteSize) (htable : Table v.bsize hdr ptrs)
    (hlen : ptrs.length ≤ dbMax v.bsize) (h : Agree v.bsize b hdr) (out : Buf) :
    Prog.Yields (.loop (tableRound d.toDisk stack v byteSize b) (0, ⟨0, out⟩))
      (· = (.more, ⟨byteSize, out.copy 0 (v.fileByte d.image ptrs) 0 byteSize⟩)) := by
  apply Prog.Yields.loop
    (fun s => s.1 ≤ ptrs.length ∧ Copied.Filled (v.fileByte d.image ptrs) out
      (min (s.1 * v.dataSize) byteSize) s.2)
    (fun s => dbMax v.bsize - s.1)
  · rintro ⟨i, c⟩ ⟨hi, hfilled⟩
    have hwritten := hfilled.written
    have hblocks := hfile.blocks i
    dsimp only at hi hfilled hwritten
    rw [tableRound]
    by_cases hmore : i < dbMax v.bsize ∧ c.written < byteSize
    · have hlt : i * v.dataSize < byteSize := by omega
      have hin := hblocks.1 hlt
      have hslot : be32 b (dbHighOff v.bsize - i * 4) = ptrs.getD i 0 :=
        (pointer_congr h hsize i).trans (htable.slot i hin)
      have hpos : ptrs.getD i 0 ≠ 0 := by
        rw [List.getD_eq_getElem?_getD, List.getElem?_eq_getElem hin]
        exact htable.pos _ (List.getElem_mem hin)
      rw [if_pos hmore]
      dsimp only
      rw [hslot, if_neg hpos]
      apply Prog.Yields.bind (readBlock_reads hd _ stack)
      rintro ⟨ret, dblk⟩ ⟨hret, hb⟩
      apply Prog.Yields.pure
      obtain ⟨data, len, hpayload, hend, hdata⟩ := payload_reads hsize hfile hin hb
      rw [tableNext, if_neg fun hne => hne hret, hpayload]
      refine ⟨⟨hin, ?_⟩, Nat.sub_succ_lt_self _ _ hmore.1⟩
      dsimp only
      rw [Nat.min_eq_left (Nat.le_of_lt hlt)] at hfilled
      rw [← hend]
      exact hfilled.append (Nat.le_of_lt hlt) fun j hj _ => hdata j hj
    · rw [if_neg hmore]
      apply Prog.Yields.pure
      have hall : min (i * v.dataSize) byteSize = byteSize := by
        by_contra hne
        have hlt : i * v.dataSize < byteSize := by omega
        have hin := hblocks.1 hlt
        exact hmore ⟨by omega, by omega⟩
      rw [hall] at hfilled
      exact congrArg (Prod.mk TableEnd.more) hfilled
  · refine ⟨Nat.zero_le _, ?_⟩
    dsimp only
    rw [Nat.zero_mul, Nat.zero_min]
    exact .zero _ out

theorem readFileContents_fills (hfile : File v d.image hdr ptrs byteSize)
    (hlen : ptrs.length ≤ dbMax v.bsize) (h : Agree v.bsize b hdr) (hmax : byteSize ≤ maxBytes)
    (out scratch : Buf) :
    Prog.Yields (readFileContents d.toDisk stack v b out maxBytes scratch)
      (· = (.noError, ⟨byteSize, out.copy 0 (v.fileByte d.image ptrs) 0 byteSize⟩)) := by
  have hle := hsize.le
  obtain ⟨htable, hext⟩ := hfile.chain.single hsize hlen
  have hbytes : be32 b (offByteSize v.bsize) = byteSize :=
    (field_congr h hle (by decide) (by decide)).trans hfile.size
  rw [readFileContents, hbytes, Nat.min_eq_left hmax]
  apply Prog.Yields.loop_unfold
  rw [tablesRound]
  split_ifs with hmore
  · apply Prog.Yields.bind (table_fills hd hsize stack hfile htable hlen h out)
    rintro _ rfl
    show Prog.Yields (tablesNext d.toDisk v byteSize ⟨b, ⟨0, out⟩, scratch⟩ _ .more) _
    rw [tablesNext, if_pos (.inl ((extension_congr h hsize).trans hext))]
    exact Prog.Yields.pure rfl
  · apply Prog.Yields.pure
    obtain rfl : byteSize = 0 := Nat.eq_zero_of_not_pos hmore
    exact congrArg (Prod.mk Retcode.noError) (Copied.Filled.zero _ out)

theorem readFileContents_short (hfile : File v d.image hdr ptrs byteSize)
    (hlen : dbMax v.bsize < ptrs.length) (h : Agree v.bsize b hdr) (maxBytes : Nat)
    (out scratch : Buf) :
    Prog.Yields (readFileContents d.toDisk stack v b out maxBytes scratch) fun y =>
      y.2.written < byteSize := by
  have hlast := (hfile.blocks (ptrs.length - 1)).2 (by omega)
  have hbound := chain_bound hd hsize stack hfile.chain h
    (min (be32 b (offByteSize v.bsize)) maxBytes) ⟨0, out⟩ scratch
  rw [if_neg (Nat.not_le.2 hlen)] at hbound
  apply hbound.mono
  intro y hy
  dsimp only at hy
  omega

end Contents

/-- The contents of a file are read just if the file has no more blocks than `DB_MAX`. -/
theorem readFileContents_exact_iff (v : Volume) (d : ImageDisk) (stack hdr out scratch : Buf)
    (ptrs : List Nat) (byteSize maxBytes : Nat) (hd : d.Reads) (hsize : BlockSize v.bsize)
    (hfile : File v d.image hdr ptrs byteSize) (hmax : byteSize ≤ maxBytes) :
    Prog.Yields (readFileContents d.toDisk stack v hdr out maxBytes scratch)
      (· = (.noError, ⟨byteSize, out.copy 0 (v.fileByte d.image ptrs) 0 byteSize⟩)) ↔
      ptrs.length ≤ dbMax v.bsize := by
  have hself : Agree v.bsize hdr hdr := fun _ _ => rfl
  constructor
  · intro h
    by_contra hlen
    obtain ⟨y, rfl, hshort⟩ := Exfat.yields_both h
      (readFileContents_short hd hsize stack hfile (Nat.not_le.1 hlen) hself maxBytes out scratch)
    exact absurd hshort (Nat.lt_irrefl _)
  · intro hlen
    exact readFileContents_fills hd hsize stack hfile hlen hself hmax out scratch

/-- A volume with blocks of 512 bytes, with the OFS or the FFS. -/
def floppy (isFfs : Bool) : Volume := ⟨0, 901120, 512, 0, isFfs, false, false, fun _ => 0, 880⟩

def helloDisk : ImageDisk :=
  Disk.ofImage (written [be 512 4 tData, be 524 4 5, slice 536 [0x68, 0x65, 0x6C, 0x6C, 0x6F]])

def helloHeader : Buf := written [be 308 4 1, be 324 4 5]

theorem hello_file : File (floppy false) helloDisk.image helloHeader [1] 5 := by
  have htable : Table 512 helloHeader [1] :=
    ⟨by decide, by decide +kernel, by decide, by decide +kernel⟩
  have hdata : (floppy false).dataSize = 488 := rfl
  refine ⟨.last htable (by decide +kernel), by decide +kernel, fun k => ?_, fun _ k hk => ?_⟩
  · rw [hdata, List.length_singleton]
    omega
  · obtain rfl : k = 0 := Nat.lt_one_iff.1 hk
    exact ⟨by decide +kernel, by decide +kernel⟩

/-- A disk whose block 74 is the extension block of a file, for block 73. -/
def extensionDisk : ImageDisk := Disk.ofImage (written [be 37888 4 tList, be 38196 4 73])

/-- A header that uses all its slots, for the blocks 1 to 72, with an extension block. -/
def extendedHeader : Buf :=
  written (be 324 4 37376 :: be 504 4 74 :: (List.range 72).map fun i => be (308 - i * 4) 4 (i + 1))

theorem extended_file : File (floppy true) extensionDisk.image extendedHeader
    (List.range' 1 72 ++ [73]) 37376 := by
  have htable : Table 512 extendedHeader (List.range' 1 72) := by
    refine ⟨by decide, by decide +kernel, by decide, fun i hi hlt => ?_⟩
    exact absurd hlt (Nat.not_lt.2 hi)
  have hext : be32 extendedHeader (offExtension (floppy true).bsize) = 74 := by decide +kernel
  have hmore : Chain (floppy true) extensionDisk.image
      ((floppy true).block extensionDisk.image 74) [73] :=
    .last ⟨by decide, by decide +kernel, by decide, by decide +kernel⟩ (by decide +kernel)
  have hdata : (floppy true).dataSize = 512 := rfl
  refine ⟨.next htable rfl ?_ ?_ ?_ (List.cons_ne_nil _ _), by decide +kernel, fun k => ?_,
    fun hffs => ?_⟩
  · rw [hext]
    decide
  · rw [hext]
    decide +kernel
  · rw [hext]
    exact hmore
  · rw [hdata, List.length_append, List.length_range', List.length_singleton]
    omega
  · cases hffs

theorem readFileContents_exact_extended :
    (Prog.Yields (readFileContents helloDisk.toDisk (fun _ => 0) (floppy false) helloHeader
      (fun _ => 0) 0xFFFFFFFF fun _ => 0) (· = (.noError, ⟨5, Buf.copy (fun _ => 0) 0
        ((floppy false).fileByte helloDisk.image [1]) 0 5⟩)) ↔ [1].length ≤ dbMax 512) ∧
    (Prog.Yields (readFileContents extensionDisk.toDisk (fun _ => 0) (floppy true) extendedHeader
      (fun _ => 0) 0xFFFFFFFF fun _ => 0) (· = (.noError, ⟨37376, Buf.copy (fun _ => 0) 0
        ((floppy true).fileByte extensionDisk.image (List.range' 1 72 ++ [73])) 0 37376⟩)) ↔
      (List.range' 1 72 ++ [73]).length ≤ dbMax 512) :=
  ⟨readFileContents_exact_iff (floppy false) helloDisk (fun _ => 0) helloHeader (fun _ => 0)
    (fun _ => 0) [1] 5 0xFFFFFFFF (ofImage_reads _) (.inl rfl) hello_file (by decide),
    readFileContents_exact_iff (floppy true) extensionDisk (fun _ => 0) extendedHeader
      (fun _ => 0) (fun _ => 0) (List.range' 1 72 ++ [73]) 37376 0xFFFFFFFF (ofImage_reads _)
      (.inl rfl) extended_file (by decide)⟩

/-- A header that uses all its slots, for the blocks 1 to 72. -/
def fullHeader : Buf :=
  written (be 324 4 36864 :: (List.range 72).map fun i => be (308 - i * 4) 4 (i + 1))

theorem full_file (image : Nat → UInt8) :
    File (floppy true) image fullHeader (List.range' 1 72) 36864 := by
  have htable : Table 512 fullHeader (List.range' 1 72) := by
    refine ⟨by decide, by decide +kernel, by decide, fun i hi hlt => ?_⟩
    exact absurd hlt (Nat.not_lt.2 hi)
  have hdata : (floppy true).dataSize = 512 := rfl
  refine ⟨.last htable (by decide +kernel), by decide +kernel, fun k => ?_, fun hffs => ?_⟩
  · rw [hdata, List.length_range']
    omega
  · cases hffs

/-- A file with a full header and no extension block is read without its last block. -/
theorem full_header_cut : File (floppy true) helloDisk.image fullHeader (List.range' 1 72) 36864 ∧
    ¬ Prog.Yields (readFileContents helloDisk.toDisk (fun _ => 0) (floppy true) fullHeader
      (fun _ => 0) 0xFFFFFFFF fun _ => 0) (· = (.noError, ⟨36864, Buf.copy (fun _ => 0) 0
        ((floppy true).fileByte helloDisk.image (List.range' 1 72)) 0 36864⟩)) := by
  refine ⟨full_file _, fun h => ?_⟩
  obtain ⟨y, rfl, hshort⟩ := Exfat.yields_both h
    (readFileContents_short (ofImage_reads _) (.inl rfl) (fun _ => 0) (full_file _)
      (show dbMax 512 < (List.range' 1 72).length by decide) (fun _ _ => rfl) 0xFFFFFFFF
      (fun _ => 0) fun _ => 0)
  exact absurd hshort (Nat.lt_irrefl _)

end Ffs

end Pegasos2.Fs
