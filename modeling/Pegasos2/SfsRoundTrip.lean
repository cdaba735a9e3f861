import Pegasos2.AmigaSfs
import Pegasos2.MkRdb

namespace Pegasos2.Fs
open Program
open PartitionPkg (Agree)
set_option autoImplicit true

namespace Sfs

open MkRdb (numData fileName volumeName sfsRootFields sfsObjcFields writeFsobject
  sfsExtentTreeFields buildSfsFilesystem)

/-- The generated volume. -/
structure Generated (payload : List UInt8) (n dostype : Nat) (blocks : Nat → Buf) : Prop where
  magic : dostype % 2 ^ 32 - dostype % 2 ^ 8 = dostypeMagic24
  room : 5 + numData payload < n
  extent_lt : numData payload < 2 ^ 16
  boot : Holds bsize [be 0 4 dostype] (blocks 0)
  root : (∃ c, Holds bsize (sfsRootFields 1 1 n 2 3 ++ [be 4 4 c]) (blocks 1)) ∧
    Rdb.checksum (blocks 1) 128 = 0
  rootObjc : ∃ c, Holds bsize (sfsObjcFields 2 1 (writeFsobject 24 2 true volumeName 0 4) ++
    [be 4 4 c]) (blocks 2)
  extents : ∃ c, Holds bsize (sfsExtentTreeFields 3 [(5, numData payload)] ++ [be 4 4 c]) (blocks 3)
  topdir : ∃ c, Holds bsize (sfsObjcFields 4 2
    (writeFsobject 24 3 false fileName 5 payload.length) ++ [be 4 4 c]) (blocks 4)
  file : HoldsFile blocks 5 payload

theorem buildSfsFilesystem_generated (h : buildSfsFilesystem payload n dostype = some blocks) :
    Generated payload n dostype blocks := by
  rw [buildSfsFilesystem] at h
  split_ifs at h with hok
  obtain ⟨hmagic, hnum, hroom⟩ := hok
  obtain ⟨boot, hboot, h⟩ := Option.bind_eq_some_iff.1 h
  obtain ⟨root, hroot, h⟩ := Option.bind_eq_some_iff.1 h
  obtain ⟨rootObjc, hrootObjc, h⟩ := Option.bind_eq_some_iff.1 h
  obtain ⟨topdir, htopdir, h⟩ := Option.bind_eq_some_iff.1 h
  obtain ⟨extents, hextents, h⟩ := Option.bind_eq_some_iff.1 h
  obtain ⟨secondary, -, h⟩ := Option.bind_eq_some_iff.1 h
  have hfun := Option.some.inj h
  have hblocks (k : Nat) (hk : k < 5) : blocks k =
      if k = 3 then extents else if k = 4 then topdir else if k = 2 then rootObjc
        else if k = 1 then root else if k = 0 then boot else fun _ => 0 := by
    rw [← hfun]
    dsimp only
    rw [if_neg (by omega), if_neg (by omega)]
  have hboot' : blocks 0 = boot := hblocks 0 (by decide)
  have hroot' : blocks 1 = root := hblocks 1 (by decide)
  have hrootObjc' : blocks 2 = rootObjc := hblocks 2 (by decide)
  have hextents' : blocks 3 = extents := hblocks 3 (by decide)
  have htopdir' : blocks 4 = topdir := hblocks 4 (by decide)
  constructor
  · exact hmagic
  · omega
  · omega
  · rw [hboot']
    exact packed_holds hboot bsize
  · rw [hroot']
    exact checksummed_holds (k := 1) hroot rfl (by decide) bsize
  · rw [hrootObjc']
    exact (checksummed_holds (k := 1) hrootObjc rfl (by decide) bsize).1
  · rw [hextents']
    exact (checksummed_holds (k := 1) hextents rfl (by decide) bsize).1
  · rw [htopdir']
    exact (checksummed_holds (k := 1) htopdir rfl (by decide) bsize).1
  · intro i hi
    have hnum := MkRdb.lt_numData hi
    rw [← hfun]
    dsimp only
    rw [if_neg (by omega), if_pos (by omega), Nat.add_sub_cancel_left]
    exact fun _ _ => rfl

theorem Generated.le (hg : Generated payload n dostype blocks) : n ≤ 2 ^ 32 := by
  obtain ⟨⟨c, hroot⟩, -⟩ := hg.root
  have hfits : Field.Fits (be 48 4 n) := hroot.fits _ (by simp [sfsRootFields])
  exact Nat.le_of_lt hfits

section Load

variable {d : Disk} {loc n dostype : Nat} {payload : List UInt8} {blocks : Nat → Buf}

theorem Generated.boot_not_root (hg : Generated payload n dostype blocks)
    (hb : Agree bsize b (blocks 0)) : sfsChecksumOk b = false := by
  have hboot : Holds (128 * 4) [be 0 4 dostype] b := hg.boot.of_agree hb
  have hlt : dostype < 2 ^ 32 := hboot.fits _ List.mem_cons_self
  have hmagic := hg.magic
  rw [dostypeMagic24] at hmagic
  rw [sfsChecksumOk, checksum_first hboot (by decide), Bool.or_eq_false_iff, beq_eq_false_iff_ne,
    beq_eq_false_iff_ne]
  omega

theorem findRoot_generated (hd : Serves d loc n blocks) (hg : Generated payload n dostype blocks)
    (buf : Buf) :
    Prog.Yields (findRoot d loc [0, 1] buf) fun x =>
      ∃ b, x = some b ∧ Agree bsize b (blocks 1) := by
  have hroom := hg.room
  apply Prog.Yields.bind (hd.readBlock (k := 0) (by omega) buf)
  rintro ⟨ret, boot⟩ ⟨-, hboot⟩
  have hbad : ¬ (ret = .noError ∧ sfsChecksumOk boot ∧ be32 boot 8 = 0) := by
    rw [hg.boot_not_root hboot]
    exact fun h => Bool.false_ne_true h.2.1
  dsimp only
  rw [if_neg hbad]
  apply Prog.Yields.bind (hd.readBlock (k := 1) (by omega) boot)
  rintro ⟨ret, b⟩ ⟨hret, hb⟩
  obtain ⟨⟨c, hroot⟩, hsum⟩ := hg.root
  have hgood : ret = .noError ∧ sfsChecksumOk b ∧ be32 b 8 = 1 := by
    refine ⟨hret, ?_, (hroot.of_agree hb).be32 rfl (by decide)⟩
    rw [sfsChecksumOk, Agree.checksum hb (by decide), hsum]
    rfl
  dsimp only
  rw [if_pos hgood]
  exact Prog.Yields.pure ⟨b, rfl, hb⟩

/-- What the reader knows of the generated volume. -/
structure Mounted (loc : Nat) (v : Volume) : Prop where
  partLoc : v.partLoc = loc
  caseSens : v.caseSens = false
  rootDir : v.rootDirFirstOc = 4
  extents : v.extentBnRoot = 3

theorem sfsOpenVolume_generated (hd : Serves d loc n blocks)
    (hg : Generated payload n dostype blocks) (stack buf : Buf) :
    Prog.Yields (sfsOpenVolume d stack loc dostype buf) fun x =>
      ∃ v, x = some v ∧ Mounted loc v := by
  have hroom := hg.room
  apply Prog.Yields.bind (findRoot_generated hd hg buf)
  rintro _ ⟨b, rfl, hb⟩
  obtain ⟨⟨c, hroot⟩, -⟩ := hg.root
  have hroot := hroot.of_agree hb
  have hobjc : be32 b 104 = 2 := hroot.be32 rfl (by decide)
  have htotal : be32 b 48 = n := hroot.be32 rfl (by decide)
  have hok : RootOk b := by
    have hversion : be16 b 12 = 3 := hroot.be16 rfl (by decide)
    have hsize : be32 b 52 = bsize := hroot.be32 rfl (by decide)
    rw [RootOk, hversion, hsize, hobjc, htotal]
    omega
  rw [openRoot, if_pos hok, hobjc]
  apply Prog.Yields.bind (hd.readBlock (k := 2) (by omega) stack)
  rintro ⟨ret, oc⟩ ⟨hret, hoc⟩
  obtain ⟨c, hoc'⟩ := hg.rootObjc
  have hoc := hoc'.of_agree hoc
  have hocOk : RootObjcOk oc := by
    have hid : be32 oc 0 = blockidObjc := hoc.be32 rfl (by decide)
    have hnode : be32 oc (24 + 4) = 2 := hoc.be32 rfl (by decide)
    rw [RootObjcOk, hid, hnode]
    exact ⟨rfl, by decide⟩
  apply Prog.Yields.pure
  rw [if_pos ⟨hret, hocOk⟩]
  refine ⟨_, rfl, rfl, ?_, hoc.be32 rfl (by decide), hroot.be32 rfl (by decide)⟩
  have hbits : b.nat 20 = 0 := hroot.nat rfl (by decide)
  rw [volume, hbits]
  rfl

theorem skipCstring_eq {l : List UInt8} (h : bytes b p (l.length + 1) = l ++ [0])
    (hl : ∀ c ∈ l, c ≠ 0) (hn : l.length < n) : skipCstring b p n = p + l.length + 1 := by
  induction l generalizing p n with
  | nil =>
    obtain ⟨n, rfl⟩ := Nat.exists_eq_succ_of_ne_zero (Nat.ne_of_gt hn)
    rw [bytes_succ] at h
    rw [skipCstring, if_pos (List.cons.inj h).1]
    rfl
  | cons c l ih =>
    obtain ⟨n, rfl⟩ := Nat.exists_eq_succ_of_ne_zero (Nat.ne_of_gt (Nat.zero_lt_of_lt hn))
    rw [List.length_cons, bytes_succ] at h
    obtain ⟨hc, hrest⟩ := List.cons.inj h
    rw [skipCstring, if_neg (by rw [hc]; exact hl c List.mem_cons_self),
      ih hrest (fun x hx => hl x (List.mem_cons_of_mem _ hx)) (Nat.lt_of_succ_lt_succ hn),
      List.length_cons]
    omega

theorem fileName_ne_zero : ∀ c ∈ fileName, c ≠ 0 := by
  have hall : fileName.all (· != 0) = true := by decide
  intro c hc
  exact bne_iff_ne.1 (List.all_eq_true.1 hall c hc)

theorem topdir_object (hg : Generated payload n dostype blocks) (hb : Agree bsize b (blocks 4)) :
    be32 b 0 = blockidObjc ∧ be32 b 8 = 4 ∧ be32 b (24 + 4) = 3 ∧
      objectRecordSize b 24 (bsize - 24) = 36 ∧ object b 24 = ⟨5, payload.length, 0, fileName⟩ := by
  obtain ⟨c, hdir⟩ := hg.topdir
  have hdir := hdir.of_agree hb
  have hname : bytes b 49 (fileName.length + 1) = fileName ++ [0] :=
    (bytes_of_holds hdir (show lookup 49 9 false _ = some (ofBytes (fileName ++ [0])) from rfl)
      (by decide)).trans (by decide)
  have hcomment : bytes b 58 1 = [0] :=
    (bytes_of_holds hdir (show lookup 58 1 false _ = some 0 from rfl) (by decide)).trans (by decide)
  refine ⟨hdir.be32 rfl (by decide), hdir.be32 rfl (by decide), hdir.be32 rfl (by decide), ?_, ?_⟩
  · have hskip : skipCstring b (24 + 25) (bsize - 24 - 25) = 58 :=
      skipCstring_eq hname fileName_ne_zero (by decide)
    have hend : stringsEnd b (24 + 25) (bsize - 24 - 25) = 59 := by
      rw [stringsEnd, hskip]
      exact skipCstring_eq (l := []) hcomment (fun _ h => absurd h List.not_mem_nil) (by decide)
    rw [objectRecordSize, if_neg (by decide), hend]
  · have hdata : be32 b (24 + 12) = 5 := hdir.be32 rfl (by decide)
    have hsize : be32 b (24 + 16) = payload.length := hdir.be32 rfl (by decide)
    have hbits : b.nat (24 + 24) = 0 := hdir.nat rfl (by decide)
    have hlen : cstringLen b (24 + 25) (bsize - 24 - 25) = fileName.length :=
      cstringLen_eq hname fileName_ne_zero (by decide)
    rw [object, hdata, hsize, hbits, hlen]
    exact congrArg (Object.mk 5 payload.length 0) (bytes_of_cstring hname)

theorem sfsDirLookup_generated (hd : Serves d loc n blocks)
    (hg : Generated payload n dostype blocks) (hv : Mounted loc v) (stack : Buf) :
    Prog.Yields (sfsDirLookup d stack v 4 (component testElf)) fun x =>
      x = .ok ⟨5, payload.length, 0, fileName⟩ := by
  have hroom := hg.room
  have hwalk : Prog.Yields (walkDir d stack v true
      (fun o => sfsNameEq v o.name (component testElf)) 4) fun e =>
        e.found = .ok ⟨5, payload.length, 0, fileName⟩ := by
    apply Prog.Yields.loop_once
    rw [dirRound, if_neg (by decide), if_neg (by decide), hv.partLoc]
    apply Prog.Yields.bind (hd.readBlock (k := 4) (by omega) stack)
    rintro ⟨ret, b⟩ ⟨hret, hb⟩
    obtain ⟨hid, hown, hnode, hrec, hobj⟩ := topdir_object hg hb
    have hret : ret = .noError := hret
    show Prog.Yields (dirBlock true _ ⟨4, 0, []⟩ ret b) _
    rw [dirBlock, if_neg (not_not.2 hret), if_neg (not_not.2 hid), if_neg fun h => h.2 hown]
    have hobjects : Prog.Yields (walkObjects (fun o => sfsNameEq v o.name (component testElf)) b [])
        (· = ([], some ⟨5, payload.length, 0, fileName⟩)) := by
      apply Prog.Yields.loop_once
      apply Prog.Yields.pure
      refine ⟨_, ?_, rfl⟩
      have hhit : sfsNameEq v fileName (component testElf) = true := by
        rw [sfsNameEq, hv.caseSens]
        decide
      rw [objectRound, if_pos (by decide), hnode, if_neg (by decide), hrec, if_neg (by decide),
        hobj, if_pos hhit]
    apply Prog.Yields.bind hobjects
    rintro _ rfl
    exact Prog.Yields.pure ⟨_, rfl, rfl⟩
  apply Prog.Yields.bind hwalk
  intro e he
  exact Prog.Yields.pure he

theorem sfsLookupExtent_generated (hd : Serves d loc n blocks)
    (hg : Generated payload n dostype blocks) (hv : Mounted loc v) (stack : Buf) :
    Prog.Yields (sfsLookupExtent d stack v 5) fun x => x = .ok ⟨5, numData payload, 0⟩ := by
  have hroom := hg.room
  apply Prog.Yields.loop_once
  rw [extentTreeRound, hv.extents, if_pos (by decide), hv.partLoc]
  apply Prog.Yields.bind (hd.readBlock (k := 3) (by omega) stack)
  rintro ⟨ret, b⟩ ⟨hret, hb⟩
  obtain ⟨c, hext⟩ := hg.extents
  have hext := hext.of_agree hb
  have hid : be32 b 0 = blockidBndc := hext.be32 rfl (by decide)
  have hcount : be16 b 12 = 1 := hext.be16 rfl (by decide)
  have hleaf : b.nat 14 = 1 := hext.nat rfl (by decide)
  have hsize : b.nat 15 = 14 := hext.nat rfl (by decide)
  have hkey : be32 b 16 = 5 := hext.be32 rfl (by decide)
  have hnext : be32 b (16 + 4) = 0 := hext.be32 rfl (by decide)
  have hblocks : be16 b (16 + 12) = numData payload := hext.be16 rfl (by decide)
  have hok : NodeOk b := by
    rw [NodeOk, hid, hcount, hsize]
    decide
  have hentry : leafEntry b 5 0 1 = some 16 := by
    have hbn : bnode b 0 = 16 := by rw [bnode, Nat.zero_mul]
    rw [leafEntry, hbn, hkey, if_pos rfl]
  apply Prog.Yields.pure
  refine ⟨_, ?_, rfl⟩
  rw [descend, if_neg (not_not.2 hret), if_neg (not_not.2 hok), hleaf, if_pos (by decide), hcount,
    hentry, leaf, hblocks, hnext]

theorem amigaSfs_loads (h : buildSfsFilesystem payload n dostype = some blocks)
    (hd : Serves d loc n blocks) (stack : Buf) {q : Call} (hwhat : q.what = .load)
    (hpath : q.path = testElf) (hloc : q.loc = loc) (hsize : bsize ≤ q.size) :
    Prog.Yields (amigaSfs d stack q) (Loads payload q) := by
  have hg := buildSfsFilesystem_generated h
  have hroom := hg.room
  rw [amigaSfs, if_neg (Nat.not_lt.2 hsize), hloc]
  apply Prog.Yields.bind (hd.readBlock (k := 0) (by omega) stack)
  rintro ⟨ret, boot⟩ ⟨hret, hboot⟩
  have hboot := hg.boot.of_agree hboot
  have hdt : be32 boot 0 = dostype := hboot.be32 rfl (by decide)
  have hlt : dostype < 2 ^ 32 := hboot.fits _ List.mem_cons_self
  have hmagic : dostype - dostype % 2 ^ 8 = dostypeMagic24 := by
    have hmagic := hg.magic
    rwa [Nat.mod_eq_of_lt hlt] at hmagic
  show Prog.Yields (afterBoot d stack q ret boot) _
  rw [afterBoot, if_neg (not_not.2 hret), hdt, if_neg (not_not.2 hmagic), hloc]
  apply Prog.Yields.bind (sfsOpenVolume_generated hd hg stack q.buf)
  rintro _ ⟨v, rfl, hv⟩
  rw [afterOpen, hwhat, act]
  have hwalk : Prog.Yields (sfsWalkPath d stack v q.path) (· = .ok ⟨5, payload.length, 0⟩) := by
    have hlast : (walker d stack v).last ⟨5, payload.length, 0, fileName⟩ =
        ⟨5, payload.length, 0⟩ :=
      if_neg (by simp [Object.isDir])
    rw [sfsWalkPath, hpath, hv.rootDir, ← hlast]
    exact (walker d stack v).walkPath_single (by decide) testElf_isSep
      (sfsDirLookup_generated hd hg hv stack)
  apply Prog.Yields.bind hwalk
  rintro _ rfl
  have hfile : ¬ (Target.isDir ⟨5, payload.length, 0⟩ ∨ Target.isLink ⟨5, payload.length, 0⟩) := by
    simp [Target.isDir, Target.isLink]
  have hread := readFile_loads hd hg.le stack q.retbuf (show 5 ≠ 0 by decide)
    (sfsLookupExtent_generated hd hg hv stack) rfl (Nat.le_of_lt hroom)
    (MkRdb.length_le_numData payload) hg.file
  rw [load, if_neg hfile, sfsReadFileContents, hv.partLoc]
  apply Prog.Yields.bind hread
  rintro ⟨ret, c⟩ ⟨hret, hc⟩
  exact Prog.Yields.pure (loaded_loads q hret hc)

end Load

end Sfs

end Pegasos2.Fs
