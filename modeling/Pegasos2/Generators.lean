import Pegasos2.SfsRoundTrip
import Pegasos2.PfsRoundTrip
import Pegasos2.ExfatRoundTrip
import Pegasos2.DiskParsers

namespace Pegasos2.Fs
open Program
open PartitionPkg (Agree)
set_option autoImplicit true

namespace Rdb

open MkRdb (totalCyls partOffset partitionBlocks buildRigidDiskBlock buildPartitionBlock
  rigidDiskFields partitionFields)

theorem env_generated (hpart : buildPartitionBlock total dostype = some part)
    (hb : Agree bsize b part) :
    be32 b 0 = magicPart ∧ ∃ pri type,
      env b = ⟨128, 16, 1, 63, 2, u32 (totalCyls total + 2 ^ 32 - 1), pri, type⟩ := by
  obtain ⟨⟨c, hheld⟩, -⟩ := checksummed_holds (k := 2) hpart rfl (by decide) bsize
  have hheld := hheld.of_agree hb
  have hsize : be32 b (128 + 1 * 4) = 128 := hheld.be32 rfl (by decide)
  have hsurfaces : be32 b (128 + 3 * 4) = 16 := hheld.be32 rfl (by decide)
  have hspb : be32 b (128 + 4 * 4) = 1 := hheld.be32 rfl (by decide)
  have hbpt : be32 b (128 + 5 * 4) = 63 := hheld.be32 rfl (by decide)
  have hlow : be32 b (128 + 9 * 4) = 2 := hheld.be32 rfl (by decide)
  have hhigh : be32 b (128 + 10 * 4) = u32 (totalCyls total + 2 ^ 32 - 1) :=
    hheld.be32 rfl (by decide)
  refine ⟨hheld.be32 rfl (by decide), be32 b (128 + 15 * 4), be32 b (128 + 16 * 4), ?_⟩
  rw [env, hsize, hsurfaces, hspb, hbpt, hlow, hhigh]

theorem range_generated (hhigh : 2 ≤ high) (hmax : high < 2 ^ 32) (pri type : Nat) :
    Env.range ⟨128, 16, 1, 63, 2, high, pri, type⟩ =
      some (partOffset, (high - 1) * MkRdb.bytesPerCyl) := by
  have hbpc : Env.bpc ⟨128, 16, 1, 63, 2, high, pri, type⟩ = MkRdb.bytesPerCyl := by
    show u64 (16 * 63 * 128 * 4) = MkRdb.bytesPerCyl
    decide
  have hlen : u32 (high - 2 + 1) = high - 1 := by
    rw [u32, Nat.mod_eq_of_lt] <;> omega
  have hfit : (high - 1) * MkRdb.bytesPerCyl < 2 ^ 64 := by
    rw [show MkRdb.bytesPerCyl = 516096 from rfl]
    omega
  rw [Env.range, if_neg]
  · dsimp only
    rw [hbpc, hlen, u64, u64, Nat.mod_eq_of_lt (show 2 * MkRdb.bytesPerCyl < 2 ^ 64 by decide),
      Nat.mod_eq_of_lt hfit, partOffset]
  · rintro (h | h | h | h)
    · exact absurd h (show ¬ (128 : Nat) = 0 by decide)
    · exact absurd h (show ¬ (16 : Nat) = 0 by decide)
    · exact absurd h (show ¬ (63 : Nat) = 0 by decide)
    · exact absurd h (Nat.not_lt.2 hhigh)

theorem fsBlockSize_generated (high pri type : Nat) :
    Env.fsBlockSize ⟨128, 16, 1, 63, 2, high, pri, type⟩ = MkRdb.blockSize := by
  show u32 (128 * 4 * 1) = MkRdb.blockSize
  decide

theorem decode_generated (hpart : buildPartitionBlock total dostype = some part)
    (hmin : 3 ≤ totalCyls total) (hmax : totalCyls total ≤ 2 ^ 32) (hb : Agree bsize b part) :
    be32 b 0 = magicPart ∧
      decodePartitionRange b = some (partOffset, partitionBlocks total * MkRdb.blockSize) ∧
      (env b).fsBlockSize = MkRdb.blockSize := by
  obtain ⟨hid, pri, type, henv⟩ := env_generated hpart hb
  have hcyl : u32 (totalCyls total + 2 ^ 32 - 1) = totalCyls total - 1 := by
    rw [u32]
    omega
  have hblocks : (totalCyls total - 1 - 1) * MkRdb.bytesPerCyl =
      partitionBlocks total * MkRdb.blockSize := by
    rw [partitionBlocks, MkRdb.bytesPerCyl, MkRdb.blockSize, MkRdb.surfaces, MkRdb.blksPerTrk]
    omega
  rw [hcyl] at henv
  refine ⟨hid, ?_, ?_⟩
  · rw [decodePartitionRange, henv, range_generated (by omega) (by omega), hblocks]
  · rw [henv, fsBlockSize_generated]

theorem hint_generated (hpart : buildPartitionBlock total dostype = some part)
    (hpos : 0 < partitionBlocks total)
    (hrange : decodePartitionRange part = some (start, size)) :
    (env part).fsBlockSize = bsize ∧
      ∃ c, 0 < c ∧ 1008 * c ≤ partitionBlocks total ∧ size = 1008 * c * bsize := by
  obtain ⟨-, pri, type, henv⟩ := env_generated hpart (b := part) fun _ _ => rfl
  have hparts : partitionBlocks total = 1008 * (totalCyls total - 2) := by
    rw [partitionBlocks, MkRdb.surfaces, MkRdb.blksPerTrk]
    omega
  have hhigh : u32 (totalCyls total + 2 ^ 32 - 1) = (totalCyls total - 1) % 2 ^ 32 := by
    rw [u32, show totalCyls total + 2 ^ 32 - 1 = totalCyls total - 1 + 2 ^ 32 by omega,
      Nat.add_mod_right]
  have hle := Nat.mod_le (totalCyls total - 1) (2 ^ 32)
  have hlt := Nat.mod_lt (totalCyls total - 1) (show 0 < 2 ^ 32 by decide)
  rw [hhigh] at henv
  refine ⟨by rw [henv, fsBlockSize_generated]; rfl, (totalCyls total - 1) % 2 ^ 32 - 1, ?_⟩
  rw [decodePartitionRange, henv] at hrange
  have hgood : 2 ≤ (totalCyls total - 1) % 2 ^ 32 := by
    by_contra hbad
    rw [Env.range, if_pos (.inr (.inr (.inr (Nat.not_le.1 hbad))))] at hrange
    exact Option.some_ne_none _ hrange.symm
  rw [range_generated hgood hlt] at hrange
  obtain ⟨-, hsize⟩ := Prod.mk.inj (Option.some.inj hrange)
  refine ⟨by omega, by omega, ?_⟩
  rw [← hsize, MkRdb.bytesPerCyl, MkRdb.surfaces, MkRdb.blksPerTrk, MkRdb.blockSize, bsize]
  omega

theorem found_generated (hrdb : buildRigidDiskBlock total = some rdb) (hb : Agree bsize b rdb) :
    be32 b 0 = magicRdsk ∧ rdbChecksumOk b (be32 b 4) = true ∧ be32 b 28 = 1 := by
  obtain ⟨⟨c, hheld⟩, hsum⟩ := checksummed_holds (k := 2) hrdb rfl (by decide) bsize
  have hheld := hheld.of_agree hb
  have hlongs : be32 b 4 = 64 := hheld.be32 rfl (by decide)
  refine ⟨hheld.be32 rfl (by decide), ?_, hheld.be32 rfl (by decide)⟩
  rw [hlongs, rdbChecksumOk, hb.checksum (show 64 * 4 ≤ bsize by decide), hsum]
  rfl

theorem served_halts (h : Serves d loc n blocks) (hk : k < n) (buf : Buf) (w : World) :
    ∃ data, d.read w.reads (u64 (loc + k * blockSizeDefault)) blockSizeDefault = .ok data ∧
      Agree bsize (buf.copy 0 data 0 blockSizeDefault) (blocks k) ∧
      Prog.Halts (filesysReadBytes d (u64 (loc + k * blockSizeDefault)) blockSizeDefault buf) w
        (.noError, buf.copy 0 data 0 blockSizeDefault) { w with reads := w.reads + 1 } := by
  have hle : k * bsize < n * bsize := Nat.mul_lt_mul_of_pos_right hk (by decide)
  have hloc : u64 (loc + k * blockSizeDefault) = loc + k * bsize :=
    Nat.mod_eq_of_lt (Nat.lt_of_lt_of_le (Nat.add_lt_add_left hle loc) h.fits)
  rw [hloc]
  obtain ⟨data, hdata, hagree⟩ := h.read w.reads k hk
  refine ⟨data, hdata, fun i hi => ?_, ?_⟩
  · have hcopy : buf.copy 0 data 0 blockSizeDefault (0 + i) = data (0 + i) :=
      Buf.copy_inside buf data hi
    rw [Nat.zero_add] at hcopy
    exact hcopy.trans (hagree i hi)
  · obtain ⟨data', hdata', hread⟩ | ⟨fault, left, hfail, -⟩ :=
      filesysReadBytes_halts d (loc + k * bsize) blockSizeDefault buf w
    · obtain rfl := Outcome.ok.inj (hdata.symm.trans hdata')
      exact hread
    · exact Outcome.noConfusion (hdata.symm.trans hfail)

/-- The blocks of the disk in front of the partition. -/
def tableBlocks (rdb part : Buf) (k : Nat) : Buf := if k = 0 then rdb else part

section Generated

variable {total dostype : Nat} {rdb part : Buf} {d : Disk} {q : Call}

theorem opened_generated (hrdb : buildRigidDiskBlock total = some rdb)
    (hd : Serves d q.loc 2 (tableBlocks rdb part)) (hsize : blockSizeDefault ≤ q.size) (w : World) :
    ∃ buf w₀, Opened d q w buf w₀ ∧ be32 buf 28 = 1 := by
  obtain ⟨data, -, hagree, hread⟩ :=
    served_halts hd (k := 0) (by decide) q.buf { w with hint := ⟨0, 0⟩ }
  obtain ⟨hmagic, hsum, -⟩ := found_generated hrdb hagree
  have hfind : Prog.Halts (findRdb d q.loc q.buf) { w with hint := ⟨0, 0⟩ }
      (some 0, q.buf.copy 0 data 0 blockSizeDefault)
      { w with hint := ⟨0, 0⟩, reads := w.reads + 1 } := by
    rw [findRdb, findRdbFrom]
    apply hread.bind
    dsimp only
    rw [if_neg fun hne => hne rfl, if_pos ⟨hmagic, hsum⟩]
    exact .pure _ _
  obtain ⟨data', -, hagree', hread'⟩ :=
    served_halts hd (k := 0) (by decide) (q.buf.copy 0 data 0 blockSizeDefault)
      { w with hint := ⟨0, 0⟩, reads := w.reads + 1 }
  obtain ⟨-, -, hlist⟩ := found_generated hrdb hagree'
  refine ⟨_, _, ⟨hsize, ⟨0, _, _, hfind, hread'⟩, ?_⟩, hlist⟩
  rw [hlist]
  decide

theorem partition_generated (hd : Serves d q.loc 2 (tableBlocks rdb part))
    (hpart : ∀ b, Agree bsize b part → be32 b 0 = magicPart) (hlist : be32 buf₀ 28 = 1)
    (w₀ : World) :
    ∃ buf w₁, partition d q.loc (first buf₀, w₀) 0 = some (buf, w₁) ∧ Agree bsize buf part := by
  obtain ⟨data, hdata, hagree, -⟩ := served_halts hd (k := 1) (by decide) buf₀ w₀
  refine ⟨_, { w₀ with reads := w₀.reads + 1 }, ?_, hagree⟩
  have hend : ¬ (first buf₀).AtEnd := by
    rw [first, hlist]
    rintro (h | h | h)
    · exact absurd h (show ¬ (1 : Nat) = 0 by decide)
    · exact absurd h (show ¬ (1 : Nat) = 0xFFFFFFFF by decide)
    · exact absurd h (show ¬ 32 ≤ 0 by decide)
  rw [partition, chain, Option.bind_some, readBlock, if_neg hend, first, hlist]
  dsimp only
  rw [hdata]
  dsimp only
  rw [if_pos (hpart _ hagree)]

/-- `amiga_rdb` finds the partition of a generated disk, and calls `file_system` for it with the
place and the hints that the generator has used. -/
theorem amigaRdb_generated (hrdb : buildRigidDiskBlock total = some rdb)
    (hpart : buildPartitionBlock total dostype = some part) (hmin : 3 ≤ totalCyls total)
    (hmax : totalCyls total ≤ 2 ^ 32) (hd : Serves d q.loc 2 (tableBlocks rdb part))
    (hsize : blockSizeDefault ≤ q.size) (hwhat : q.what = .list ∨ q.what = .load)
    (hsel : (selectPartition q.path).1 = 0) (fs : Call → Io Reply) (w : World) :
    ∃ buf w₁, w₁.hint = ⟨partitionBlocks total * MkRdb.blockSize, MkRdb.blockSize⟩ ∧
      ∀ r w', Prog.Halts (amigaRdb d fs q) w r w' ↔
        ∃ r', Prog.Halts (fs (slice q (selectPartition q.path).2 buf partOffset)) w₁ r' w' ∧
          r = relabel r' := by
  have hdecode (b : Buf) (hb : Agree bsize b part) := decode_generated hpart hmin hmax hb
  obtain ⟨buf₀, w₀, hop, hlist⟩ := opened_generated hrdb hd hsize w
  obtain ⟨part', w₁, hfirst, hagree⟩ :=
    partition_generated hd (fun b hb => (hdecode b hb).1) hlist w₀
  obtain ⟨-, hrange, hblock⟩ := hdecode part' hagree
  have hentered : ¬ NoneEntered d q (selectPartition q.path).1 (first buf₀, w₀) := by
    intro hnone
    apply hnone 0 _ _ hfirst
    refine ⟨fun hbad => absurd (hrange.symm.trans hbad) (Option.some_ne_none _), ?_, hwhat⟩
    rw [hsel]
    rfl
  have hprobe : q.what ≠ .probe := by
    intro h
    obtain hw | hw := hwhat <;> exact Action.noConfusion (h.symm.trans hw)
  obtain ⟨buf, w₀', hop', hrun⟩ | ⟨hno, -⟩ := amigaRdb_opens d fs q hprobe w
  · obtain ⟨rfl, rfl⟩ := hop.unique hop'
    cases walkEnd d fs q (selectPartition q.path).1 (selectPartition q.path).2 (first buf₀, w₀) with
    | atEnd _ _ _ hnone _ => exact (hentered hnone).elim
    | broken _ _ _ hnone _ _ _ => exact (hentered hnone).elim
    | @entered n b w₂ start size hpart' hrange' hidx _ hloop =>
      obtain rfl : n = 0 := by
        rw [hsel] at hidx
        exact Int.ofNat.inj (hidx.trans (Int.zero_add _)).symm
      obtain ⟨rfl, rfl⟩ := Prod.mk.injEq _ _ _ _ ▸ Option.some.inj (hpart'.symm.trans hfirst)
      obtain ⟨hstart, hbytes⟩ :=
        Prod.mk.injEq _ _ _ _ ▸ Option.some.inj (hrange'.symm.trans hrange)
      rw [hstart, hbytes] at hloop
      refine ⟨b, _, ?_, fun r w' => (hrun r w').trans (hloop r w')⟩
      rw [hinted, hblock]
  · exact (hno _ _ hop).elim

end Generated

end Rdb

/-- The readers load the file that the generators have put on a volume, and `amiga_rdb` finds the
partition of a generated disk. -/
theorem generated_loads (payload : List UInt8) (d : Disk) (stack : Buf) (q : Call) (n : Nat)
    (blocks : Nat → Buf) (hd : Serves d q.loc n blocks) (hsize : bsize ≤ q.size)
    (hwhat : q.what = .load) :
    (∀ dostype, dostype = 0x53465300 ∨ dostype = 0x53465302 →
      MkRdb.buildSfsFilesystem payload n dostype = some blocks → q.path = testElf →
        Prog.Yields (Sfs.amigaSfs d stack q) (Loads payload q)) ∧
    (∀ dostype, dostype = Pfs.dtPfs1 ∨ dostype = Pfs.dtPfs2 →
      MkRdb.buildPfsFilesystem payload n dostype = some blocks → q.path = testElf →
        Prog.Yields (Pfs.amigaPfs3 d stack q) (Loads payload q)) ∧
    (MkExfat.clusterCount n + 1 < 2 ^ 32 → MkExfat.buildImage n payload = some blocks →
      q.path = testElf → Prog.Yields (Exfat.fsExfat d stack q) (Loads payload q)) ∧
    ∀ total dostype rdb part, 3 ≤ MkRdb.totalCyls total → MkRdb.totalCyls total ≤ 2 ^ 32 →
      MkRdb.buildRigidDiskBlock total = some rdb →
      MkRdb.buildPartitionBlock total dostype = some part → n = 2 →
      blocks = Rdb.tableBlocks rdb part → (Rdb.selectPartition q.path).1 = 0 →
      ∀ fs w, ∃ buf w₁,
        w₁.hint = ⟨MkRdb.partitionBlocks total * MkRdb.blockSize, MkRdb.blockSize⟩ ∧
        ∀ r w', Prog.Halts (Rdb.amigaRdb d fs q) w r w' ↔
          ∃ r', Prog.Halts (fs (Rdb.slice q (Rdb.selectPartition q.path).2 buf MkRdb.partOffset))
            w₁ r' w' ∧ r = Rdb.relabel r' := by
  refine ⟨fun dostype _ hbuild hpath => ?_, fun dostype hdt hbuild hpath => ?_,
    fun hcount hbuild hpath => ?_, ?_⟩
  · exact Sfs.amigaSfs_loads hbuild hd stack hwhat hpath rfl hsize
  · exact Pfs.amigaPfs3_loads hbuild hdt hd stack hwhat hpath rfl hsize
  · exact Exfat.fsExfat_loads hbuild hcount hd stack hwhat hpath rfl hsize
  · rintro total dostype rdb part hmin hmax hrdb hpart rfl rfl hsel fs w
    exact Rdb.amigaRdb_generated hrdb hpart hmin hmax hd hsize (.inr hwhat) hsel fs w

/-- A disk with the given blocks from its start on. -/
def ofBlocks (blocks : Nat → Buf) : Disk :=
  (Disk.ofImage fun i => blocks (i / bsize) (i % bsize)).toDisk

theorem ofBlocks_serves (blocks : Nat → Buf) (hn : n * bsize ≤ 2 ^ 64) :
    Serves (ofBlocks blocks) 0 n blocks := by
  refine ⟨by rwa [Nat.zero_add], fun time k hk => ⟨_, rfl, fun i hi => ?_⟩⟩
  have hdiv : (0 + k * bsize + i) / bsize = k := by
    rw [Nat.zero_add, Nat.add_comm, Nat.add_mul_div_right _ _ (show 0 < bsize by decide),
      Nat.div_eq_of_lt hi, Nat.zero_add]
  have hmod : (0 + k * bsize + i) % bsize = i := by
    rw [Nat.zero_add, Nat.add_comm, Nat.add_mul_mod_self_right, Nat.mod_eq_of_lt hi]
  show blocks ((0 + k * bsize + i) / bsize) ((0 + k * bsize + i) % bsize) = blocks k i
  rw [hdiv, hmod]

def loadTestElf : Call :=
  ⟨.load, testElf, 0, 0, fun _ => 0, 512, fun _ => 0, [], 0⟩

/-- A payload of ten blocks, or two clusters. -/
def spread : List UInt8 := (List.range 5000).map UInt8.ofNat

def loadFromPartition : Call := { loadTestElf with path := "0/test.elf".toList }

theorem generated_loads_spread :
    (∃ blocks, MkRdb.buildSfsFilesystem spread 1008 0x53465300 = some blocks ∧
      Prog.Yields (Sfs.amigaSfs (ofBlocks blocks) (fun _ => 0) loadTestElf)
        (Loads spread loadTestElf)) ∧
    (∃ blocks, MkRdb.buildPfsFilesystem spread 1008 Pfs.dtPfs2 = some blocks ∧
      Prog.Yields (Pfs.amigaPfs3 (ofBlocks blocks) (fun _ => 0) loadTestElf)
        (Loads spread loadTestElf)) ∧
    (∃ blocks, MkExfat.buildImage 128 spread = some blocks ∧
      Prog.Yields (Exfat.fsExfat (ofBlocks blocks) (fun _ => 0) loadTestElf)
        (Loads spread loadTestElf)) ∧
    ∃ rdb part, MkRdb.buildRigidDiskBlock 10080 = some rdb ∧
      MkRdb.buildPartitionBlock 10080 0x53465300 = some part ∧ ∀ fs w, ∃ buf w₁,
        w₁.hint = ⟨MkRdb.partitionBlocks 10080 * MkRdb.blockSize, MkRdb.blockSize⟩ ∧
        ∀ r w', Prog.Halts (Rdb.amigaRdb (ofBlocks (Rdb.tableBlocks rdb part)) fs
            loadFromPartition) w r w' ↔
          ∃ r', Prog.Halts (fs (Rdb.slice loadFromPartition
            (Rdb.selectPartition loadFromPartition.path).2 buf MkRdb.partOffset)) w₁ r' w' ∧
            r = Rdb.relabel r' := by
  have hsfs : (MkRdb.buildSfsFilesystem spread 1008 0x53465300).isSome = true := by decide +kernel
  have hpfs : (MkRdb.buildPfsFilesystem spread 1008 Pfs.dtPfs2).isSome = true := by decide +kernel
  have hexfat : (MkExfat.buildImage 128 spread).isSome = true := by decide +kernel
  have hrdb : (MkRdb.buildRigidDiskBlock 10080).isSome = true := by decide +kernel
  have hpart : (MkRdb.buildPartitionBlock 10080 0x53465300).isSome = true := by decide +kernel
  obtain ⟨sfs, hsfs⟩ := Option.isSome_iff_exists.1 hsfs
  obtain ⟨pfs, hpfs⟩ := Option.isSome_iff_exists.1 hpfs
  obtain ⟨exfat, hexfat⟩ := Option.isSome_iff_exists.1 hexfat
  obtain ⟨rdb, hrdb⟩ := Option.isSome_iff_exists.1 hrdb
  obtain ⟨part, hpart⟩ := Option.isSome_iff_exists.1 hpart
  have hloads := fun n blocks (hn : n * bsize ≤ 2 ^ 64) => generated_loads spread
    (ofBlocks blocks) (fun _ => 0) loadTestElf n blocks (ofBlocks_serves blocks hn)
    (Nat.le_refl _) rfl
  have htable := generated_loads spread (ofBlocks (Rdb.tableBlocks rdb part)) (fun _ => 0)
    loadFromPartition 2 (Rdb.tableBlocks rdb part) (ofBlocks_serves _ (by decide))
    (Nat.le_refl _) rfl
  exact ⟨⟨sfs, hsfs, (hloads 1008 sfs (by decide)).1 _ (.inl rfl) hsfs rfl⟩,
    ⟨pfs, hpfs, (hloads 1008 pfs (by decide)).2.1 _ (.inr rfl) hpfs rfl⟩,
    ⟨exfat, hexfat, (hloads 128 exfat (by decide)).2.2.1 (by decide) hexfat rfl⟩,
    rdb, part, hrdb, hpart,
    htable.2.2.2 10080 _ rdb part (by decide) (by decide) hrdb hpart rfl rfl (by decide)⟩

/-- With `2 ^ 32 + 1` cylinders, the last one is stored as zero, and the partition is none. With
`2 ^ 32 - 1` clusters, the number of the last one wraps to zero, and no volume is found. -/
theorem generated_too_large :
    (¬ ∀ total dostype part, 3 ≤ MkRdb.totalCyls total →
      MkRdb.buildPartitionBlock total dostype = some part →
      Rdb.decodePartitionRange part =
        some (MkRdb.partOffset, MkRdb.partitionBlocks total * MkRdb.blockSize)) ∧
    ¬ ∀ payload n blocks, MkExfat.buildImage n payload = some blocks →
      Prog.Yields (Exfat.fsExfat (ofBlocks blocks) (fun _ => 0) loadTestElf)
        (Loads payload loadTestElf) := by
  constructor
  · intro h
    have hbad : (MkRdb.buildPartitionBlock (1008 * 4294967297) 0x53465300).map
        Rdb.decodePartitionRange = some none := by decide +kernel
    obtain ⟨part, hpart, hnone⟩ := Option.map_eq_some_iff.1 hbad
    have hsome := h _ _ part (by decide) hpart
    exact absurd (hsome.symm.trans hnone) (Option.some_ne_none _)
  · intro h
    have hbad : ((MkExfat.buildImage 34359738392 [1, 2, 3]).bind fun blocks =>
        ((Exfat.fsExfat (ofBlocks blocks) (fun _ => 0) loadTestElf).run 60 Rdb.boot).map
          (·.1.ret)) = some .eNoFilesys := by decide +kernel
    obtain ⟨blocks, hblocks, hrun⟩ := Option.bind_eq_some_iff.1 hbad
    obtain ⟨y, hy, hret⟩ := Option.map_eq_some_iff.1 hrun
    obtain ⟨r, w, hhalts, hloads⟩ := h _ _ blocks hblocks Rdb.boot
    obtain ⟨rfl, -⟩ := hhalts.unique ⟨60, hy⟩
    exact Retcode.noConfusion (hret.symm.trans hloads.1)

end Pegasos2.Fs
