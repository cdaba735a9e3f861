import Pegasos2.FfsOpen
import Pegasos2.Generators

namespace Pegasos2.Fs
open Program
open PartitionPkg (Agree)
set_option autoImplicit true

namespace Ffs

open MkRdb (numData fileName fileHdr volumeName firstData firstExt numExt dataGroup extAfter
  rootFields fileHeaderFields headerPointers pointerFields buildFilesystem)

/-- The blocks of the payload, and the extension blocks behind them. -/
def Covers (payload : List UInt8) (k : Nat) : Prop :=
  firstData ≤ k ∧ k < firstExt payload + numExt payload

/-- `is_lnfs` of the generator. -/
def lnfs (dostype : Nat) : Bool := dostype % 2 ^ 8 == 6 || dostype % 2 ^ 8 == 7

structure Generated (payload : List UInt8) (n dostype : Nat) (blocks : Nat → Buf) : Prop where
  room : fileHdr < n
  boot : Holds bsize [be 0 4 dostype] (blocks 0)
  root : (∃ c, Holds bsize (rootFields volumeName [(MkRdb.nameHash fileName, fileHdr)] ++
    [be 20 4 c]) (blocks 880)) ∧ Rdb.checksum (blocks 880) 128 = 0
  header : ∃ c, Holds bsize (fileHeaderFields fileHdr 880 fileName payload.length
    (dataGroup payload 0) 0 (extAfter payload 0) (lnfs dostype) ++ [be 20 4 c]) (blocks fileHdr)
  empty : ∀ k, k ≠ 0 → k ≠ 880 → k ≠ fileHdr → ¬ Covers payload k → blocks k = fun _ => 0

variable {payload : List UInt8} {n dostype : Nat} {blocks : Nat → Buf}

theorem mem_pointerFields (hf : f ∈ pointerFields i l) (hl : i + l.length ≤ MkRdb.dbMax) :
    24 ≤ f.off ∧ f.off + f.width ≤ 308 := by
  induction l generalizing i with
  | nil => cases hf
  | cons db l ih =>
    rw [List.length_cons] at hl
    obtain rfl | hf := List.mem_cons.1 hf
    · have hmax : MkRdb.dbMax = 71 := rfl
      have hhigh : MkRdb.dbHighOff = 304 := rfl
      dsimp only
      rw [hhigh]
      omega
    · exact ih hf (by omega)

/-- The bytes of a header that are neither pointers nor `first_data`. -/
def Apart (off width : Nat) : Prop :=
  off + width ≤ 16 ∨ 20 ≤ off ∧ off + width ≤ 24 ∨ 308 ≤ off

instance (off width : Nat) : Decidable (Apart off width) := inferInstanceAs (Decidable (_ ∨ _))

theorem mem_headerPointers (hf : f ∈ headerPointers l) (hl : l.length ≤ MkRdb.dbMax)
    (hoff : Apart off width) : f.off + f.width ≤ off ∨ off + width ≤ f.off := by
  rw [Apart] at hoff
  obtain hf | hf := List.mem_append.1 hf
  · obtain ⟨db, -, rfl⟩ := List.mem_map.1 hf
    dsimp only
    omega
  · obtain ⟨hlow, hhigh⟩ := mem_pointerFields hf (by rwa [Nat.zero_add])
    omega

theorem length_dataGroup_le (payload : List UInt8) (k : Nat) :
    (dataGroup payload k).length ≤ MkRdb.dbMax := List.length_take_le _ _

theorem header_lookup {dataBlocks : List Nat} (hl : dataBlocks.length ≤ MkRdb.dbMax)
    (hw : 0 < width) (hoff : Apart off width) (fs : List Field) :
    lookup off width false (fileHeaderFields ownKey parent name byteSize dataBlocks nextHash
      extension isLnfs ++ fs).reverse =
    lookup off width false ([be 0 4 MkRdb.tHeader, be 4 4 ownKey, be 8 4 dataBlocks.length] ++
      ([be MkRdb.offByteSize 4 byteSize] ++ MkRdb.putName name isLnfs ++
        [be MkRdb.offExtension 4 extension, be MkRdb.offParent 4 parent,
          be MkRdb.offNextHash 4 nextHash, be MkRdb.offSecType 4 MkRdb.stFile] ++ fs)).reverse := by
  rw [fileHeaderFields, List.append_assoc]
  exact lookup_middle hw (fun f hf => mem_headerPointers hf hl hoff) _ _

theorem buildFilesystem_generated (h : buildFilesystem payload n dostype = some blocks) :
    Generated payload n dostype blocks := by
  rw [buildFilesystem] at h
  split_ifs at h with hok
  obtain ⟨-, hroom⟩ := hok
  obtain ⟨boot, hboot, h⟩ := Option.bind_eq_some_iff.1 h
  obtain ⟨header, hheader, h⟩ := Option.bind_eq_some_iff.1 h
  obtain ⟨exts, -, h⟩ := Option.bind_eq_some_iff.1 h
  obtain ⟨root, hroot, h⟩ := Option.bind_eq_some_iff.1 h
  have hfun := Option.some.inj h
  rw [MkRdb.buildFileHeader] at hheader
  rw [MkRdb.buildRootBlock] at hroot
  split_ifs at hheader hroot
  have hfirst : firstData = 882 := rfl
  have hhdr : fileHdr = 881 := rfl
  have hrootBlock : MkRdb.rootBlock = 880 := rfl
  have hext : firstExt payload = 882 + numData payload := rfl
  have hblocks (k : Nat) (hk : ¬ Covers payload k) : blocks k =
      if k = 880 then root else if k = fileHdr then header else if k = 0 then boot
        else fun _ => 0 := by
    rw [Covers] at hk
    rw [← hfun]
    dsimp only
    rw [hrootBlock]
    split_ifs <;> first | rfl | omega
  have hlow (k : Nat) (hk : k < firstData) : ¬ Covers payload k :=
    fun h => Nat.not_lt.2 h.1 hk
  constructor
  · omega
  · rw [hblocks 0 (hlow 0 (by decide))]
    exact packed_holds hboot bsize
  · rw [hblocks 880 (hlow 880 (by decide))]
    exact checksummed_holds (k := 5) hroot rfl (by decide) bsize
  · rw [hblocks fileHdr (hlow fileHdr (by decide))]
    have hsum : lookup (5 * 4) 4 false (fileHeaderFields fileHdr 880 fileName payload.length
        (dataGroup payload 0) 0 (extAfter payload 0) (lnfs dostype)).reverse = some 0 := by
      rw [← List.append_nil (fileHeaderFields _ _ _ _ _ _ _ _), header_lookup
        (length_dataGroup_le payload 0) (by decide) (by decide)]
      cases lnfs dostype <;> rfl
    exact (checksummed_holds (k := 5) hheader hsum (by decide) bsize).1
  · intro k h0 hroot' hhdr' hk
    rw [hblocks k hk, if_neg hroot', if_neg hhdr', if_neg h0]

/-- The name is where the reader looks for it on the volumes without long names only. -/
theorem header_name (hg : Generated payload n dostype blocks)
    (hb : Agree bsize b (blocks fileHdr)) :
    extractName bsize (lnfs dostype) b = if lnfs dostype then [] else fileName := by
  obtain ⟨c, hheader⟩ := hg.header
  have hheader := hheader.of_agree hb
  have hgroup := length_dataGroup_le payload 0
  generalize lnfs dostype = isLnfs at hheader ⊢
  cases isLnfs with
  | true =>
    have hlen : b.nat 328 = 0 :=
      hheader.nat ((header_lookup hgroup (by decide) (by decide) _).trans rfl) (by decide)
    have hpos : offLnfsNac bsize = 328 := rfl
    rw [extractName, if_pos rfl, if_pos rfl, hpos, hlen]
    rfl
  | false =>
    have hlen : b.nat 432 = fileName.length :=
      hheader.nat ((header_lookup hgroup (by decide) (by decide) _).trans rfl) (by decide)
    have hpos : offName bsize = 432 := rfl
    have hname : bytes b 433 fileName.length = _ := bytes_of_holds hheader
      ((header_lookup hgroup (by decide) (by decide) _).trans
        (show _ = some (ofBytes fileName) from rfl)) (by decide)
    rw [extractName, if_neg Bool.false_ne_true, if_neg Bool.false_ne_true, hpos, hlen]
    exact hname.trans (by decide)

/-- What the reader sees of the header: the slot that it takes for the first pointer is empty. -/
theorem header_generated (hg : Generated payload n dostype blocks)
    (hb : Agree bsize b (blocks fileHdr)) :
    be32 b 0 = tHeader ∧ be32 b (offSecType bsize) = stFile ∧ be32 b (offNextHash bsize) = 0 ∧
      be32 b (dbHighOff bsize) = 0 := by
  obtain ⟨c, hheader⟩ := hg.header
  have hheader := hheader.of_agree hb
  have hbe (off v : Nat) (hoff : Apart off 4) (hle : off + 4 ≤ bsize)
      (hl : lookup off 4 false _ = some v) : be32 b off = v :=
    hheader.be32 ((header_lookup (length_dataGroup_le payload 0) (by decide) hoff
      [be 20 4 c]).trans hl) hle
  refine ⟨hbe 0 _ (by decide) (by decide) ?_, hbe 508 _ (by decide) (by decide) ?_,
    hbe 496 _ (by decide) (by decide) ?_, hbe 308 _ (by decide) (by decide) ?_⟩
  all_goals
    cases lnfs dostype
    all_goals rfl

theorem root_generated (hg : Generated payload n dostype blocks)
    (hb : Agree bsize b (blocks 880)) (intl : Bool) :
    IsRoot bsize b ∧ be32 b (htOffset + nameHash intl bsize fileName * 4) = fileHdr := by
  obtain ⟨⟨c, hroot⟩, hsum⟩ := hg.root
  have hroot := hroot.of_agree hb
  have hhash : nameHash intl bsize fileName = MkRdb.nameHash fileName := by
    cases intl <;> decide
  have htype : be32 b 0 = tHeader := hroot.be32 rfl (by decide)
  have hsec : be32 b (offSecType bsize) = stRoot := hroot.be32 rfl (by decide)
  refine ⟨⟨htype, hsec, ?_⟩, ?_⟩
  · rw [checksumOk, Agree.checksum hb (show bsize / 4 * 4 ≤ bsize by decide)]
    exact beq_iff_eq.2 hsum
  · rw [hhash]
    exact hroot.be32 rfl (by decide)

theorem not_root_zero (hb : Agree bsize b fun _ => 0) (name : List UInt8) (intl : Bool) :
    ¬ IsRoot bsize b ∧ be32 b (htOffset + nameHash intl bsize name * 4) = 0 := by
  have hzero (off : Nat) : be32 (fun _ => 0) off = 0 := by simp [be32, Buf.nat]
  constructor
  · intro h
    have htype := h.1
    rw [hb.be32 (show 0 + 4 ≤ bsize by decide), hzero] at htype
    exact absurd htype (by decide)
  · have hle : 512 ≤ bsize := Nat.le_refl _
    rw [hb.be32 (slot_le hle (nameHash_lt hle name)), hzero]

theorem rootCalc_of_lt (hpos : 0 < m) (hlt : m + 1 < 2 ^ 32) : rootCalc m = (m + 1) / 2 := by
  have hhigh : u64 (m + 2 ^ 64 - 1) = m - 1 := by
    rw [u64]
    omega
  have hsum : 2 + (m - 1) = m + 1 := by omega
  have hcalc : u32 (2 + u32 (m - 1)) = m + 1 := by
    rw [u32, u32, Nat.mod_eq_of_lt (show m - 1 < 2 ^ 32 by omega), hsum, Nat.mod_eq_of_lt hlt]
  rw [rootCalc, hhigh, hcalc]

theorem rootCalc_lt (hm : 2 ≤ m) : rootCalc m < m := by
  by_cases hlt : m + 1 < 2 ^ 32
  · rw [rootCalc_of_lt (by omega) hlt]
    omega
  · have hcalc : rootCalc m < 2 ^ 31 := by
      rw [rootCalc]
      exact Nat.div_lt_of_lt_mul (Nat.mod_lt _ (by decide))
    omega

/-- The blocks in front of the payload, but for that at 880, are no root blocks. -/
theorem not_root_generated (hg : Generated payload n dostype blocks) (hdos : dostype ≠ tHeader)
    (hk : k ≠ 880) (hcov : ¬ Covers payload k) (hb : Agree bsize b (blocks k)) :
    ¬ IsRoot bsize b := by
  intro hroot
  by_cases hzero : k = 0
  · subst hzero
    have hboot : be32 b 0 = dostype := (hg.boot.of_agree hb).be32 rfl (by decide)
    exact hdos (hboot.symm.trans hroot.1)
  · by_cases hhdr : k = fileHdr
    · subst hhdr
      obtain ⟨-, hsec, -⟩ := header_generated hg hb
      exact absurd (hsec.symm.trans hroot.2.1) (by decide)
    · rw [hg.empty k hzero hk hhdr hcov] at hb
      exact (not_root_zero hb [] false).1 hroot

section Open

variable {d : Disk} {loc m : Nat}

theorem readBlockSz_serves (hd : Serves d loc n blocks) (hk : k < n) (buf : Buf) :
    Prog.Yields (readBlockSz d loc k bsize buf) fun x =>
      x.1 = .noError ∧ Agree bsize x.2 (blocks k) := hd.filesysReadBytes hk buf

theorem pickRoot_generated (hd : Serves d loc n blocks) (hg : Generated payload n dostype blocks)
    (hdos : dostype ≠ tHeader) (hm : 880 < m) (hmn : m ≤ n) (hcov : ¬ Covers payload (rootCalc m))
    (buf : Buf) :
    Prog.Yields (pickRoot d loc bsize ⟨m * bsize, bsize⟩ buf) (·.1 = some 880) := by
  have hpos : m * bsize ≠ 0 := Nat.ne_of_gt (Nat.mul_pos (by omega) (by decide))
  have hblocks : m * bsize / bsize = m := Nat.mul_div_cancel m (by decide)
  rw [pickRoot, if_pos ⟨hpos, show bsize ≠ 0 by decide⟩]
  dsimp only
  rw [hblocks, probeCalc]
  refine Prog.Yields.bind (P := fun x => x.1 = none ∨ x.1 = some 880) ?_ ?_
  · have hmid : rootCalc m < n := Nat.lt_of_lt_of_le (rootCalc_lt (by omega)) hmn
    apply Prog.Yields.bind (readBlockSz_serves hd hmid buf)
    rintro ⟨ret, b⟩ ⟨-, hb⟩
    apply Prog.Yields.pure
    dsimp only
    split_ifs with hroot
    · refine .inr (congrArg some ?_)
      by_contra hne
      exact not_root_generated hg hdos hne hcov hb hroot.2
    · exact .inl rfl
  · rintro ⟨root, b⟩ (rfl | rfl)
    · dsimp only
      rw [probeMids, probeTable, if_neg (by omega)]
      apply Prog.Yields.bind (readBlockSz_serves hd (k := 880) (by omega) b)
      rintro ⟨ret, b⟩ ⟨hret, hb⟩
      dsimp only at hret ⊢
      rw [if_neg (not_not.2 hret), if_pos (root_generated hg hb false).1]
      exact Prog.Yields.pure rfl
    · exact Prog.Yields.pure rfl

/-- A volume on a generated partition, with the hash table of the block `root`. -/
structure Mounted (loc : Nat) (isLnfs : Bool) (root : Buf) (v : Volume) : Prop where
  partLoc : v.partLoc = loc
  bsize : v.bsize = bsize
  isLnfs : v.isLnfs = isLnfs
  root : Agree Fs.bsize v.rootbuf root

theorem mounted_volume {root : Buf} (hdt : dt % 2 ^ 8 = dostype % 2 ^ 8) (hlt : dt < 2 ^ 8)
    (hb : Agree bsize b root) (partSize rootBlock : Nat) :
    Mounted loc (lnfs dostype) root (volume loc partSize bsize dt rootBlock b) := by
  refine ⟨rfl, rfl, ?_, hb⟩
  rw [lnfs, ← hdt, Nat.mod_eq_of_lt hlt]
  rfl

/-- Below 4 GiB the reader takes the block in the middle of the partition for the root block. -/
theorem openPicked_generated (hd : Serves d loc n blocks) (hg : Generated payload n dostype blocks)
    (hm : 880 < m) (hmn : m ≤ n) (hzero : m * bsize < 2 ^ 32 → blocks (m / 2) = fun _ => 0)
    (hdt : dt % 2 ^ 8 = dostype % 2 ^ 8) (hlt : dt < 2 ^ 8) (buf : Buf) :
    Prog.Yields (openPicked d loc bsize ⟨m * bsize, bsize⟩ dt 880 buf) fun x =>
      Mounted loc (lnfs dostype) (if 2 ^ 32 ≤ m * bsize then blocks 880 else fun _ => 0) x.1 := by
  have hpos : m * bsize ≠ 0 := Nat.ne_of_gt (Nat.mul_pos (by omega) (by decide))
  have hblocks : m * bsize / bsize = m := Nat.mul_div_cancel m (by decide)
  have hdt' : dt % 2 ^ 8 < 2 ^ 8 := Nat.mod_lt _ (by decide)
  rw [openPicked, openVolume]
  by_cases hlarge : 2 ^ 32 ≤ m * bsize
  · have hguess : partSizeGuess bsize ⟨m * bsize, bsize⟩ 880 / bsize / 2 = 880 := by
      rw [partSizeGuess, if_neg fun h => absurd h.2 (by dsimp only; omega)]
      decide
    rw [hguess, if_pos hlarge]
    apply Prog.Yields.bind (P := fun x => ∃ v, x.1 = some v ∧
      Mounted loc (lnfs dostype) (blocks 880) v)
    · apply Prog.Yields.bind (readBlockSz_serves hd (k := 880) (by omega) buf)
      rintro ⟨ret, b⟩ ⟨hret, hb⟩
      apply Prog.Yields.pure
      dsimp only
      rw [if_pos ⟨hret, (root_generated hg hb false).1⟩]
      exact ⟨_, rfl, mounted_volume (by rw [Nat.mod_mod, hdt]) hdt' hb _ _⟩
    · rintro ⟨_, b⟩ ⟨v, rfl, hv⟩
      exact Prog.Yields.pure hv
  · have hguess : partSizeGuess bsize ⟨m * bsize, bsize⟩ 880 / bsize / 2 = m / 2 := by
      rw [partSizeGuess, if_pos ⟨hpos, by dsimp only; omega⟩, hblocks]
    rw [hguess, if_neg hlarge]
    apply Prog.Yields.bind (P := fun x => x.1 = none ∧ Agree bsize x.2 fun _ => 0)
    · apply Prog.Yields.bind (readBlockSz_serves hd (k := m / 2) (by omega) buf)
      rintro ⟨ret, b⟩ ⟨-, hb⟩
      apply Prog.Yields.pure
      rw [hzero (Nat.not_le.1 hlarge)] at hb
      dsimp only
      rw [if_neg fun h => (not_root_zero hb [] false).1 h.2]
      exact ⟨rfl, hb⟩
    · rintro ⟨_, b⟩ ⟨rfl, hb⟩
      exact Prog.Yields.pure (mounted_volume hdt hlt hb _ _)

end Open

section Search

variable {d : Disk} {loc : Nat} {v : Volume}

theorem lookupInHash_zero (hv : Mounted loc isLnfs (fun _ => 0) v) (name : List UInt8)
    (scratch : Buf) : Prog.Yields (lookupInHash d v v.rootbuf name scratch) (·.1 = 0) := by
  rw [lookupInHash, hv.bsize, (not_root_zero hv.root name v.isIntl).2]
  apply Prog.Yields.loop_once
  exact Prog.Yields.pure ⟨_, rfl, rfl⟩

theorem lookupInHash_generated (hd : Serves d loc n blocks)
    (hg : Generated payload n dostype blocks)
    (hv : Mounted loc (lnfs dostype) (blocks 880) v) (scratch : Buf) :
    Prog.Yields (lookupInHash d v v.rootbuf fileName scratch) fun x =>
      if lnfs dostype then x.1 = 0 else x.1 = fileHdr ∧ Agree bsize x.2 (blocks fileHdr) := by
  rw [lookupInHash, hv.bsize, (root_generated hg hv.root v.isIntl).2]
  apply Prog.Yields.loop_unfold
  rw [chainRound, if_neg (show ¬ fileHdr = 0 by decide), Volume.readBlock, hv.partLoc, hv.bsize,
    hv.isLnfs]
  apply Prog.Yields.bind (readBlockSz_serves hd hg.room scratch)
  rintro ⟨ret, b⟩ ⟨hret, hb⟩
  obtain ⟨htype, -, hnext, -⟩ := header_generated hg hb
  have hname := header_name hg hb
  apply Prog.Yields.pure
  dsimp only at hret ⊢
  rw [if_neg (not_or.2 ⟨not_not.2 hret, not_not.2 htype⟩), hname, hnext]
  cases hlnfs : lnfs dostype with
  | true =>
    rw [if_pos rfl, if_neg (by simp [nameEq, fileName])]
    apply Prog.Yields.loop_once
    exact Prog.Yields.pure ⟨_, rfl, rfl⟩
  | false =>
    rw [if_neg Bool.false_ne_true, if_pos (by simp [nameEq])]
    exact ⟨rfl, hb⟩

theorem walkPath_testElf {P : Nat × Buf → Prop}
    (h : Prog.Yields (lookupInHash d v v.rootbuf fileName scratch) P) :
    Prog.Yields (walkPath d v testElf scratch) P := by
  have hstart : testElf.dropWhile isSep = testElf := by decide
  have hne : testElf ≠ [] := by decide
  have hcomp : component testElf = fileName := by decide
  have hrest : fromSep testElf = [] := by decide
  rw [walkPath, hstart, if_neg hne]
  apply Prog.Yields.loop_once
  rw [pathRound, if_neg hne, hcomp, if_neg (by decide), if_neg (by decide)]
  apply Prog.Yields.bind h
  rintro ⟨block, b⟩ hP
  apply Prog.Yields.pure
  dsimp only
  rw [PathPos.next, hrest]
  by_cases hzero : block = 0
  · subst hzero
    rw [if_pos rfl]
    exact ⟨_, rfl, hP⟩
  · rw [if_neg hzero, if_pos rfl]
    exact ⟨_, rfl, hP⟩

theorem readFileContents_empty (hv : v.bsize = bsize) (hzero : be32 hdr (dbHighOff bsize) = 0)
    (stack out scratch : Buf) (maxBytes : Nat) :
    Prog.Yields (readFileContents d stack v hdr out maxBytes scratch)
      (· = (.noError, ⟨0, out⟩)) := by
  rw [readFileContents]
  apply Prog.Yields.loop_once
  rw [tablesRound]
  split_ifs with hmore
  · apply Prog.Yields.bind (P := (· = (.done, ⟨0, out⟩)))
    · apply Prog.Yields.loop_once
      have hmax : 0 < dbMax v.bsize := by
        rw [hv]
        decide
      have hslot : be32 hdr (dbHighOff v.bsize - 0 * 4) = 0 := by
        rw [hv]
        exact hzero
      rw [tableRound, if_pos ⟨hmax, hmore⟩, if_pos hslot]
      exact Prog.Yields.pure ⟨_, rfl, rfl⟩
    · rintro _ rfl
      exact Prog.Yields.pure ⟨_, rfl, rfl⟩
  · exact Prog.Yields.pure ⟨_, rfl, rfl⟩

end Search

section Reply

variable {d : Disk} {q : Call}

/-- What the reader answers for a generated partition whose middle is not taken by the payload. -/
def generatedReply (dostype size : Nat) (q : Call) : Reply :=
  if 2 ^ 32 ≤ size ∧ lnfs dostype = false then loaded q .noError ⟨0, q.retbuf⟩
  else q.reply .eNoFile

theorem act_generated (hd : Serves d q.loc n blocks) (hg : Generated payload n dostype blocks)
    (hv : Mounted q.loc (lnfs dostype) (if 2 ^ 32 ≤ size then blocks 880 else fun _ => 0) v)
    (hpath : q.path = testElf) (stack buf : Buf) :
    Prog.Yields (act d stack v q buf .load) (· = generatedReply dostype size q) := by
  rw [act, hpath, generatedReply]
  by_cases hlarge : 2 ^ 32 ≤ size
  · rw [if_pos hlarge] at hv
    apply Prog.Yields.bind (walkPath_testElf (lookupInHash_generated hd hg hv stack))
    rintro ⟨block, b⟩ hfound
    dsimp only at hfound ⊢
    cases hlnfs : lnfs dostype with
    | true =>
      rw [if_pos hlnfs] at hfound
      rw [if_pos hfound, if_neg fun h => Bool.noConfusion h.2]
      exact Prog.Yields.pure rfl
    | false =>
      rw [if_neg (by rw [hlnfs]; exact Bool.false_ne_true)] at hfound
      obtain ⟨rfl, hb⟩ := hfound
      obtain ⟨-, hsec, -, hslot⟩ := header_generated hg hb
      rw [if_neg (show ¬ fileHdr = 0 by decide), if_pos ⟨hlarge, rfl⟩, load, hv.bsize,
        if_neg (not_not.2 hsec)]
      apply Prog.Yields.bind (readFileContents_empty hv.bsize hslot stack q.retbuf buf _)
      rintro _ rfl
      exact Prog.Yields.pure rfl
  · rw [if_neg hlarge] at hv
    apply Prog.Yields.bind (walkPath_testElf (lookupInHash_zero hv fileName stack))
    rintro ⟨_, b⟩ rfl
    dsimp only
    rw [if_pos rfl, if_neg fun h => hlarge h.1]
    exact Prog.Yields.pure rfl

/-- The DosTypes of the FFS volumes that are generated. -/
def ffsDosTypes : List Nat := [0x444F5301, 0x444F5303, 0x444F5305, 0x444F5307]

theorem ffsDosTypes_spec : ∀ dostype ∈ ffsDosTypes,
    dostype ≠ tHeader ∧ dostype / 2 ^ 8 = 0x444F53 ∧ dostype % 2 ^ 8 ≤ 7 ∧
      (lnfs dostype = false ↔ dostype ≠ MkRdb.dostypeFfs2) := by decide

/-- The `m` blocks of the hints are of the partition, and the payload does not take the one that is
probed first. -/
structure Hinted (payload : List UInt8) (n m : Nat) (blocks : Nat → Buf) : Prop where
  large : 880 < m
  le : m ≤ n
  apart : ¬ Covers payload (rootCalc m)
  middle : m * bsize < 2 ^ 32 → blocks (m / 2) = fun _ => 0

theorem mount_generated (hd : Serves d loc n blocks) (hg : Generated payload n dostype blocks)
    (hdos : dostype ∈ ffsDosTypes) (hm : Hinted payload n m blocks) (stack iobuf : Buf) :
    Prog.Yields (mount d stack iobuf loc ⟨m * bsize, bsize⟩) fun x => ∃ v buf, x = some (v, buf) ∧
      Mounted loc (lnfs dostype) (if 2 ^ 32 ≤ m * bsize then blocks 880 else fun _ => 0) v := by
  obtain ⟨hne, hid, hmax, -⟩ := ffsDosTypes_spec dostype hdos
  have hfs : fsBsize ⟨m * bsize, bsize⟩ = bsize := rfl
  rw [mount, hfs]
  apply Prog.Yields.bind (readBlockSz_serves hd (k := 0) (Nat.zero_lt_of_lt hg.room) stack)
  rintro ⟨ret, b⟩ ⟨hret, hb⟩
  dsimp only at hret hb ⊢
  have hboot : be32 b 0 = dostype := (hg.boot.of_agree hb).be32 rfl (by decide)
  have hdt : bootDosType ret b = some (dostype % 2 ^ 8) := by
    rw [bootDosType, hboot, if_pos ⟨hret, hid, hmax⟩]
  rw [hdt]
  apply Prog.Yields.bind (pickRoot_generated hd hg hne hm.large hm.le hm.apart iobuf)
  rintro ⟨_, buf⟩ rfl
  dsimp only
  apply Prog.Yields.bind (openPicked_generated hd hg hm.large hm.le hm.middle (Nat.mod_mod _ _)
    (Nat.mod_lt _ (by decide)) buf)
  rintro ⟨v, buf⟩ hv
  exact Prog.Yields.pure ⟨v, buf, rfl, hv⟩

theorem amigaFfs_generated (hd : Serves d q.loc n blocks) (hg : Generated payload n dostype blocks)
    (hdos : dostype ∈ ffsDosTypes) (hm : Hinted payload n m blocks) (hwhat : q.what = .load)
    (hpath : q.path = testElf) (hsize : bsize ≤ q.size) (stack iobuf : Buf)
    (hhint : w.hint = ⟨m * bsize, bsize⟩) :
    Prog.Returns (amigaFfs d stack iobuf q) w fun r _ =>
      r = generatedReply dostype (m * bsize) q := by
  rw [amigaFfs, if_neg (show ¬ q.size < bsizeDefault from Nat.not_lt.2 hsize)]
  have hget : Prog.Halts getHint w ⟨m * bsize, bsize⟩ w := by
    rw [← hhint]
    exact .access _ w
  apply Prog.Returns.after hget
  have hrest := Prog.Yields.bind (mount_generated hd hg hdos hm stack iobuf)
    (k := afterMount d stack q) (Q := (· = generatedReply dostype (m * bsize) q)) ?_
  · exact hrest w
  rintro _ ⟨v, buf, rfl, hv⟩
  rw [afterMount, hwhat]
  exact act_generated hd hg hv hpath stack buf

theorem generatedReply_loads_iff (hdos : dostype ∈ ffsDosTypes) :
    Loads payload q (generatedReply dostype size q) ↔
      payload = [] ∧ dostype ≠ MkRdb.dostypeFfs2 ∧ 2 ^ 32 ≤ size := by
  obtain ⟨-, -, -, hlnfs⟩ := ffsDosTypes_spec dostype hdos
  rw [← hlnfs, generatedReply]
  split_ifs with h
  · constructor
    · rintro ⟨-, hval, -⟩
      exact ⟨List.length_eq_zero_iff.1 hval.symm, h.2, h.1⟩
    · rintro ⟨rfl, -, -⟩
      exact loaded_loads q rfl (Copied.Read.zero [] q.retbuf)
  · constructor
    · rintro ⟨hret, -⟩
      exact Retcode.noConfusion hret
    · rintro ⟨-, hl, hs⟩
      exact (h ⟨hs, hl⟩).elim

theorem hinted_generated (hg : Generated payload n dostype blocks) (hc : 0 < c)
    (hle : 1008 * c ≤ n) (hcov : ¬ Covers payload (rootCalc (1008 * c))) :
    Hinted payload n (1008 * c) blocks := by
  refine ⟨by omega, hle, hcov, fun hlt => ?_⟩
  rw [bsize] at hlt
  have hmid : rootCalc (1008 * c) = 504 * c := by
    rw [rootCalc_of_lt (by omega) (by omega)]
    omega
  have hhalf : 1008 * c / 2 = 504 * c := by omega
  rw [hmid] at hcov
  have hhdr : fileHdr = 881 := rfl
  rw [hhalf]
  exact hg.empty _ (by omega) (by omega) (by omega) hcov

theorem not_covers_nil (k : Nat) : ¬ Covers [] k := by
  have hend : firstExt [] + numExt [] = firstData := rfl
  rw [Covers, hend]
  omega

end Reply

/-- The reader returns the file of a generated partition if the file is empty, the partition has
4 GiB or more, and its names are not long ones. There are no other files that it returns, as long as
they do not reach the block that the reader probes first. -/
theorem amigaFfs_loads_generated (payload : List UInt8) (total dostype : Nat) (part : Buf)
    (blocks : Nat → Buf) (start size : Nat) (d : Disk) (stack iobuf : Buf) (q : Call) (w : World)
    (hdos : dostype ∈ ffsDosTypes) (hpart : MkRdb.buildPartitionBlock total dostype = some part)
    (hbuild : buildFilesystem payload (MkRdb.partitionBlocks total) dostype = some blocks)
    (hrange : Rdb.decodePartitionRange part = some (start, size))
    (hhint : w.hint = ⟨size, (Rdb.env part).fsBlockSize⟩)
    (hd : Serves d q.loc (MkRdb.partitionBlocks total) blocks) (hwhat : q.what = .load)
    (hpath : q.path = testElf) (hsize : bsize ≤ q.size) :
    (payload = [] ∧ dostype ≠ MkRdb.dostypeFfs2 ∧ 2 ^ 32 ≤ size →
      Prog.Returns (amigaFfs d stack iobuf q) w fun r _ => Loads payload q r) ∧
    (¬ Covers payload (rootCalc (size / bsize)) →
      (Prog.Returns (amigaFfs d stack iobuf q) w fun r _ => Loads payload q r) →
        payload = [] ∧ dostype ≠ MkRdb.dostypeFfs2 ∧ 2 ^ 32 ≤ size) := by
  have hg := buildFilesystem_generated hbuild
  obtain ⟨hblock, c, hc, hle, rfl⟩ :=
    Rdb.hint_generated hpart (Nat.zero_lt_of_lt hg.room) hrange
  have hblocks : 1008 * c * bsize / bsize = 1008 * c := Nat.mul_div_cancel _ (by decide)
  rw [hblock] at hhint
  rw [hblocks]
  have hreply (hcov : ¬ Covers payload (rootCalc (1008 * c))) :
      Prog.Returns (amigaFfs d stack iobuf q) w fun r _ =>
        r = generatedReply dostype (1008 * c * bsize) q :=
    amigaFfs_generated hd hg hdos (hinted_generated hg hc hle hcov) hwhat hpath hsize stack iobuf
      hhint
  constructor
  · intro hcond
    have hcov : ¬ Covers payload (rootCalc (1008 * c)) := hcond.1 ▸ not_covers_nil _
    apply (hreply hcov).mono
    rintro _ - rfl
    exact (generatedReply_loads_iff hdos).2 hcond
  · rintro hcov ⟨r, w₁, hrun, hloads⟩
    obtain ⟨r', w₂, hrun', rfl⟩ := hreply hcov
    obtain ⟨rfl, -⟩ := hrun.unique hrun'
    exact (generatedReply_loads_iff hdos).1 hloads

/-- The hints of `amiga_rdb` for a generated partition. -/
def hintedWorld (size : Nat) : World := ⟨0, ⟨size, bsize⟩, 0, [], []⟩

/-- What is published for a partition, if its block is generated. -/
def published (total dostype : Nat) : Option (Option (Nat × Nat) × Nat) :=
  (MkRdb.buildPartitionBlock total dostype).map fun part =>
    (Rdb.decodePartitionRange part, (Rdb.env part).fsBlockSize)

theorem amigaFfs_loads_generated_empty : ∃ blocks,
    buildFilesystem [] (MkRdb.partitionBlocks 8391600) 0x444F5303 = some blocks ∧
      Prog.Returns (amigaFfs (ofBlocks blocks) (fun _ => 0) (fun _ => 0) loadTestElf)
        (hintedWorld 4295467008) fun r _ => Loads [] loadTestElf r := by
  have hpublished : published 8391600 0x444F5303 =
      some (some (MkRdb.partOffset, 4295467008), bsize) := by decide +kernel
  have hsome : (buildFilesystem [] (MkRdb.partitionBlocks 8391600) 0x444F5303).isSome = true := by
    decide +kernel
  obtain ⟨part, hpart, hhint⟩ := Option.map_eq_some_iff.1 hpublished
  obtain ⟨hrange, hblock⟩ := Prod.mk.inj hhint
  obtain ⟨blocks, hblocks⟩ := Option.isSome_iff_exists.1 hsome
  obtain ⟨hloads, -⟩ := amigaFfs_loads_generated [] 8391600 0x444F5303 part blocks _ _
    (ofBlocks blocks) (fun _ => 0) (fun _ => 0) loadTestElf (hintedWorld 4295467008) (by decide)
    hpart hblocks hrange (by rw [hblock]; rfl) (ofBlocks_serves blocks (by decide)) rfl rfl
    (Nat.le_refl _)
  exact ⟨blocks, hblocks, hloads ⟨rfl, by decide, by decide⟩⟩

/-- A file of one byte on a disk of the default size is not found. -/
theorem generated_file_missing : ¬ ∀ payload total dostype part blocks start size w,
    dostype ∈ ffsDosTypes → MkRdb.buildPartitionBlock total dostype = some part →
      buildFilesystem payload (MkRdb.partitionBlocks total) dostype = some blocks →
      Rdb.decodePartitionRange part = some (start, size) →
      w.hint = ⟨size, (Rdb.env part).fsBlockSize⟩ →
      Prog.Returns (amigaFfs (ofBlocks blocks) (fun _ => 0) (fun _ => 0) loadTestElf) w
        fun r _ => Loads payload loadTestElf r := by
  intro h
  have hpublished : published 6144 0x444F5303 =
      some (some (MkRdb.partOffset, 2064384), bsize) := by decide +kernel
  have hsome : (buildFilesystem [1] (MkRdb.partitionBlocks 6144) 0x444F5303).isSome = true := by
    decide +kernel
  obtain ⟨part, hpart, hhint⟩ := Option.map_eq_some_iff.1 hpublished
  obtain ⟨hrange, hblock⟩ := Prod.mk.inj hhint
  obtain ⟨blocks, hblocks⟩ := Option.isSome_iff_exists.1 hsome
  have hdos : 0x444F5303 ∈ ffsDosTypes := by decide
  have hcov : ¬ Covers [1] (rootCalc (1008 * 4)) := by
    rw [Covers]
    decide
  have hg := buildFilesystem_generated hblocks
  obtain ⟨_, w₁, hrun, hloads⟩ := h [1] 6144 0x444F5303 part blocks _ _ (hintedWorld 2064384)
    hdos hpart hblocks hrange (by rw [hblock]; rfl)
  obtain ⟨_, w₂, hrun', rfl⟩ := amigaFfs_generated (q := loadTestElf) (w := hintedWorld 2064384)
    (ofBlocks_serves blocks (n := MkRdb.partitionBlocks 6144) (by decide)) hg hdos
    (hinted_generated hg (c := 4) (by decide) (by decide) hcov) rfl rfl (Nat.le_refl _)
    (fun _ => 0) (fun _ => 0) rfl
  obtain ⟨rfl, -⟩ := hrun.unique hrun'
  obtain ⟨hnil, -⟩ := (generatedReply_loads_iff hdos).1 hloads
  exact absurd hnil (List.cons_ne_nil _ _)

end Ffs

end Pegasos2.Fs
