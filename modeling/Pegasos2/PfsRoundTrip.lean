import Pegasos2.AmigaPfs3
import Pegasos2.MkRdb

namespace Pegasos2.Fs
open Program
open PartitionPkg (Agree)
set_option autoImplicit true

namespace Pfs

open MkRdb (numData fileName pfsRootFields pfsIndexFields pfsAnodeblockFields pfsRootdirFields
  buildPfsFilesystem)

/-- The generated volume. -/
structure Generated (payload : List UInt8) (n dostype : Nat) (blocks : Nat → Buf) : Prop where
  room : 6 + numData payload ≤ n
  boot : Holds bsize [be 0 4 dostype] (blocks 0)
  root : Holds bsize (pfsRootFields dostype 3 5 n 3) (blocks 2)
  index : Holds bsize (pfsIndexFields 4) (blocks 3)
  anodes : Holds bsize (pfsAnodeblockFields [(5, 1, 5, 0), (6, numData payload, 6, 0)]) (blocks 4)
  rootdir : Holds bsize (pfsRootdirFields 5 fileName 6 payload.length) (blocks 5)
  file : HoldsFile blocks 6 payload

theorem buildPfsFilesystem_generated (h : buildPfsFilesystem payload n dostype = some blocks) :
    Generated payload n dostype blocks := by
  rw [buildPfsFilesystem] at h
  split_ifs at h with hok
  obtain ⟨-, hroom⟩ := hok
  obtain ⟨boot, hboot, h⟩ := Option.bind_eq_some_iff.1 h
  obtain ⟨root, hroot, h⟩ := Option.bind_eq_some_iff.1 h
  obtain ⟨index, hindex, h⟩ := Option.bind_eq_some_iff.1 h
  obtain ⟨anodes, hanodes, h⟩ := Option.bind_eq_some_iff.1 h
  obtain ⟨rootdir, hrootdir, h⟩ := Option.bind_eq_some_iff.1 h
  have hfun := Option.some.inj h
  have hblocks (k : Nat) (hk : k < 6) : blocks k =
      if k = 5 then rootdir else if k = 4 then anodes else if k = 3 then index
        else if k = 2 then root else if k = 1 then boot else if k = 0 then boot
        else fun _ => 0 := by
    rw [← hfun]
    dsimp only
    rw [if_neg (by omega)]
  have hboot' : blocks 0 = boot := hblocks 0 (by decide)
  have hroot' : blocks 2 = root := hblocks 2 (by decide)
  have hindex' : blocks 3 = index := hblocks 3 (by decide)
  have hanodes' : blocks 4 = anodes := hblocks 4 (by decide)
  have hrootdir' : blocks 5 = rootdir := hblocks 5 (by decide)
  rw [MkRdb.buildPfsAnodeblock] at hanodes
  split_ifs at hanodes
  rw [MkRdb.buildPfsRootdirBlock] at hrootdir
  split_ifs at hrootdir
  constructor
  · omega
  · rw [hboot']
    exact packed_holds hboot bsize
  · rw [hroot']
    exact packed_holds hroot bsize
  · rw [hindex']
    exact packed_holds hindex bsize
  · rw [hanodes']
    exact packed_holds hanodes bsize
  · rw [hrootdir']
    exact packed_holds hrootdir bsize
  · intro i hi
    have hnum := MkRdb.lt_numData hi
    rw [← hfun]
    dsimp only
    rw [if_pos (by omega), Nat.add_sub_cancel_left]
    exact fun _ _ => rfl

theorem Generated.le (hg : Generated payload n dostype blocks) : n ≤ 2 ^ 32 := by
  have hfits : Field.Fits (be 84 4 n) := hg.root.fits _ (by simp [pfsRootFields])
  exact Nat.le_of_lt hfits

section Load

variable {d : Disk} {loc n dostype : Nat} {payload : List UInt8} {blocks : Nat → Buf}

/-- What the reader knows of the generated volume. -/
structure Mounted (loc : Nat) (v : Volume) : Prop where
  partLoc : v.partLoc = loc
  anodesPerBlock : v.anodesPerBlock = 41
  entriesPerIb : v.entriesPerIb = 125
  index : v.indexblocks 0 = 3

theorem pfsOpenVolume_generated (hd : Serves d loc n blocks)
    (hg : Generated payload n dostype blocks) (buf : Buf) :
    Prog.Yields (pfsOpenVolume d loc dostype buf) fun x => ∃ v, x = some v ∧ Mounted loc v := by
  have hroom := hg.room
  apply Prog.Yields.bind (hd.readBlock (k := 2) (by omega) buf)
  rintro ⟨ret, b⟩ ⟨hret, hb⟩
  have hroot := hg.root.of_agree hb
  have htype : be32 b 0 = dostype := hroot.be32 rfl (by decide)
  have hoptions : be32 b 4 = 1 := hroot.be32 rfl (by decide)
  have hblk : be16 b 64 = 512 := hroot.be16 rfl (by decide)
  have hsize : be32 b 84 = n := hroot.be32 rfl (by decide)
  have hfirst : be32 b 56 = 3 := hroot.be32 rfl (by decide)
  have hlast : be32 b 52 = 5 := hroot.be32 rfl (by decide)
  have hok : RootOk dostype b := by
    rw [RootOk, htype, hoptions, hblk, hsize, hfirst, hlast]
    exact ⟨rfl, by decide, rfl, by omega, by decide, by decide⟩
  apply Prog.Yields.pure
  rw [if_pos ⟨hret, hok⟩]
  refine ⟨_, rfl, rfl, ?_, ?_, hroot.be32 rfl (by decide)⟩
  · rw [volume, hblk]
  · rw [volume, hblk]

theorem pfsGetAnode_generated (hd : Serves d loc n blocks)
    (hg : Generated payload n dostype blocks) (hv : Mounted loc v) (stack : Buf) (ha : a < 41)
    (hx : ∀ b, Agree bsize b (blocks 4) → anode b (16 + a * 12) = x) :
    Prog.Yields (pfsGetAnode d stack v a) fun y => y = .ok x := by
  have hroom := hg.room
  have hidx : a / 41 = 0 := Nat.div_eq_of_lt ha
  have hoff : a % 41 = a := Nat.mod_eq_of_lt ha
  rw [pfsGetAnode, hv.anodesPerBlock, hv.entriesPerIb, if_neg (by decide), hidx, hoff]
  dsimp only
  rw [Nat.zero_div, if_neg (by decide), hv.index, if_neg (by decide), hv.partLoc]
  apply Prog.Yields.bind (hd.readBlock (k := 3) (by omega) stack)
  rintro ⟨ret, b⟩ ⟨hret, hb⟩
  have hindex := hg.index.of_agree hb
  have hid : be16 b 0 = idIb := hindex.be16 rfl (by decide)
  have hblk : be32 b 12 = 4 := hindex.be32 rfl (by decide)
  show Prog.Yields (indexed d stack v (0 % 125) a ret b) _
  rw [indexed, if_neg (not_not.2 hret), if_neg (not_not.2 hid), Nat.zero_mod, Nat.zero_mul, hblk,
    if_neg (by decide), hv.partLoc]
  apply Prog.Yields.bind (hd.readBlock (k := 4) (by omega) stack)
  rintro ⟨ret, b⟩ ⟨hret, hb⟩
  have hid : be16 b 0 = idAb := (hg.anodes.of_agree hb).be16 rfl (by decide)
  apply Prog.Yields.pure
  rw [anodeIn, if_neg (not_not.2 hret), if_neg (not_not.2 hid), hx b hb]

theorem rootdir_entry (hg : Generated payload n dostype blocks) (hb : Agree bsize b (blocks 5)) :
    be16 b 0 = idDb ∧ EntryOk b 20 ∧ b.nat (20 + 17) = 8 ∧
      direntry b 20 = ⟨MkRdb.pfsStFile, 6, payload.length, fileName⟩ := by
  have hdir := hg.rootdir.of_agree hb
  have hsize : b.nat 20 = 28 := hdir.nat rfl (by decide)
  have hlen : b.nat (20 + 17) = 8 := hdir.nat rfl (by decide)
  have htype : b.nat (20 + 1) = MkRdb.pfsStFile := hdir.nat rfl (by decide)
  have hanode : be32 b (20 + 2) = 6 := hdir.be32 rfl (by decide)
  have hfsize : be32 b (20 + 6) = payload.length := hdir.be32 rfl (by decide)
  have hname : bytes b (20 + 18) 8 = fileName :=
    (bytes_of_holds hdir (show lookup 38 8 false _ = some (ofBytes fileName) from rfl)
      (by decide)).trans (by decide)
  refine ⟨hdir.be16 rfl (by decide), ?_, hlen, ?_⟩
  · rw [EntryOk, hsize]
    decide
  · rw [direntry, htype, hanode, hfsize, hlen, hname]

theorem pfsDirLookup_generated (hd : Serves d loc n blocks)
    (hg : Generated payload n dostype blocks) (hv : Mounted loc v) (stack : Buf) :
    Prog.Yields (pfsDirLookup d stack v anodeRootdir (component testElf)) fun x =>
      x = .ok ⟨MkRdb.pfsStFile, 6, payload.length, fileName⟩ := by
  have hroom := hg.room
  have hanode (b : Buf) (hb : Agree bsize b (blocks 4)) : anode b (16 + 5 * 12) = ⟨5, 1, 0⟩ := by
    have hanodes := hg.anodes.of_agree hb
    have hcl : be32 b (16 + 5 * 12) = 1 := hanodes.be32 rfl (by decide)
    have hbnr : be32 b (16 + 5 * 12 + 4) = 5 := hanodes.be32 rfl (by decide)
    have hnxt : be32 b (16 + 5 * 12 + 8) = 0 := hanodes.be32 rfl (by decide)
    rw [anode, hcl, hbnr, hnxt]
  apply Prog.Yields.loop_once
  rw [lookupRound, if_pos (by decide)]
  apply Prog.Yields.bind (pfsGetAnode_generated hd hg hv stack (by decide) hanode)
  rintro _ rfl
  rw [lookupAnode, if_neg (by decide)]
  have hlookup : Prog.Yields (lookupBlocks d stack v (component testElf) ⟨5, 1, 0⟩)
      (· = some (.ok ⟨MkRdb.pfsStFile, 6, payload.length, fileName⟩)) := by
    apply Prog.Yields.loop_once
    rw [if_pos (by decide), hv.partLoc]
    apply Prog.Yields.bind (hd.readBlock (k := 5) (by omega) stack)
    rintro ⟨ret, b⟩ ⟨hret, hb⟩
    obtain ⟨hid, hentry, hlen, hde⟩ := rootdir_entry hg hb
    have hret : ret = .noError := hret
    show Prog.Yields (lookupBlock (component testElf) 0 ret b) _
    rw [lookupBlock, if_neg (not_not.2 hret)]
    have hscan : Prog.Yields (pfsScanDirblock b (component testElf))
        (· = .ok ⟨MkRdb.pfsStFile, 6, payload.length, fileName⟩) := by
      rw [pfsScanDirblock, if_neg (not_not.2 hid)]
      apply Prog.Yields.loop_once
      apply Prog.Yields.pure
      refine ⟨_, ?_, rfl⟩
      have hmatch : b.nat (20 + 17) ≠ 0 ∧ NameOk b 20 ∧
          nameEq foldCh fileName (component testElf) := by
        rw [NameOk, hlen]
        decide
      rw [scanRound, if_pos hentry, hde, if_pos hmatch]
    apply Prog.Yields.bind hscan
    rintro _ rfl
    exact Prog.Yields.pure ⟨_, rfl, rfl⟩
  apply Prog.Yields.bind hlookup
  rintro _ rfl
  exact Prog.Yields.pure ⟨_, rfl, rfl⟩

theorem amigaPfs3_loads (h : buildPfsFilesystem payload n dostype = some blocks)
    (hdt : dostype = dtPfs1 ∨ dostype = dtPfs2) (hd : Serves d loc n blocks) (stack : Buf)
    {q : Call} (hwhat : q.what = .load) (hpath : q.path = testElf) (hloc : q.loc = loc)
    (hsize : bsize ≤ q.size) : Prog.Yields (amigaPfs3 d stack q) (Loads payload q) := by
  have hg := buildPfsFilesystem_generated h
  have hroom := hg.room
  rw [amigaPfs3, if_neg (Nat.not_lt.2 hsize), hloc]
  apply Prog.Yields.bind (hd.readBlock (k := 0) (by omega) stack)
  rintro ⟨ret, boot⟩ ⟨hret, hboot⟩
  have hboot : be32 boot 0 = dostype := (hg.boot.of_agree hboot).be32 rfl (by decide)
  have hmagic : ¬ (dostype ≠ dtPfs1 ∧ dostype ≠ dtPfs2 ∧ dostype ≠ dtAfs1) := by
    rintro ⟨hne, hne', -⟩
    exact hdt.elim hne hne'
  show Prog.Yields (afterBoot d stack q ret boot) _
  rw [afterBoot, if_neg (not_not.2 hret), hboot, if_neg hmagic, hloc]
  apply Prog.Yields.bind (pfsOpenVolume_generated hd hg q.buf)
  rintro _ ⟨v, rfl, hv⟩
  rw [afterOpen, hwhat, act]
  have hwalk : Prog.Yields (pfsWalkPath d stack v q.path)
      (· = .ok ⟨MkRdb.pfsStFile, 6, payload.length⟩) := by
    rw [pfsWalkPath, hpath]
    exact (walker d stack v).walkPath_single (by decide) testElf_isSep
      (pfsDirLookup_generated hd hg hv stack)
  apply Prog.Yields.bind hwalk
  rintro _ rfl
  have hanode (b : Buf) (hb : Agree bsize b (blocks 4)) :
      anode b (16 + 6 * 12) = ⟨6, numData payload, 0⟩ := by
    have hanodes := hg.anodes.of_agree hb
    have hcl : be32 b (16 + 6 * 12) = numData payload := hanodes.be32 rfl (by decide)
    have hbnr : be32 b (16 + 6 * 12 + 4) = 6 := hanodes.be32 rfl (by decide)
    have hnxt : be32 b (16 + 6 * 12 + 8) = 0 := hanodes.be32 rfl (by decide)
    rw [anode, hcl, hbnr, hnxt]
  have hread := readFile_loads hd hg.le stack q.retbuf (show 6 ≠ 0 by decide)
    (pfsGetAnode_generated hd hg hv stack (by decide) hanode) rfl hroom
    (MkRdb.length_le_numData payload) hg.file
  have htype : ¬ (MkRdb.pfsStFile = stUserdir ∨ MkRdb.pfsStFile = stSoftlink ∨
      MkRdb.pfsStFile = stLinkdir ∨ MkRdb.pfsStFile = stLinkfileByte) := by decide
  rw [load, if_neg htype, pfsReadFile, hv.partLoc]
  apply Prog.Yields.bind hread
  rintro ⟨ret, c⟩ ⟨hret, hc⟩
  exact Prog.Yields.pure (loaded_loads q hret hc)

end Load

end Pfs

end Pegasos2.Fs
