import Pegasos2.FfsContents

namespace Pegasos2.Fs
open Program
open PartitionPkg (Agree)
set_option autoImplicit true

namespace Ffs

/-- Block `n` of the partition at `loc`. -/
def blockAt (d : Drive) (loc bsize n : Nat) : Buf := fun j => d.image (u64 (loc + n * bsize) + j)

/-- Block `n` of the partition can be read. -/
def Readable (d : Drive) (loc bsize n : Nat) : Prop :=
  ∃ data, d.read 0 (u64 (loc + n * bsize)) bsize = .ok data

/-- Block `n` of the partition is a root block. -/
def RootAt (d : Drive) (loc bsize n : Nat) : Prop :=
  Readable d loc bsize n ∧ IsRoot bsize (blockAt d loc bsize n)

theorem IsRoot.of_agree {bsize : Nat} (hle : 4 ≤ bsize) (h : Agree bsize b c) :
    IsRoot bsize b ↔ IsRoot bsize c := by
  have htype : be32 b 0 = be32 c 0 := h.be32 (by omega)
  have hsec : be32 b (offSecType bsize) = be32 c (offSecType bsize) :=
    h.be32 (by rw [offSecType, Nat.sub_add_cancel hle])
  have hsum : checksumOk b bsize = checksumOk c bsize := by
    rw [checksumOk, checksumOk, h.checksum (Nat.div_mul_le_self bsize 4)]
  rw [IsRoot, IsRoot, htype, hsec, hsum]

theorem le_fsBsize (hint : Hint) : 4 ≤ fsBsize hint := by
  rw [fsBsize]
  split_ifs with h
  · exact Nat.le_trans (by decide) h.1
  · decide

/-- The effect of `read_block`, by whether the block can be read. -/
theorem readBlockSz_yields (d : Drive) (loc bsize n : Nat) (buf : Buf) :
    Prog.Yields (readBlockSz d.toDisk loc n bsize buf) fun x =>
      (x.1 = .noError ∧ Readable d loc bsize n ∧ Agree bsize x.2 (blockAt d loc bsize n)) ∨
        x.1 ≠ .noError ∧
          ∃ fault, d.read 0 (u64 (loc + n * bsize)) bsize = .fail fault x.2 := by
  intro w
  obtain ⟨data, hread, hrun⟩ | ⟨fault, left, hread, hrun⟩ :=
    filesysReadBytes_halts d.toDisk (u64 (loc + n * bsize)) bsize buf w
  · have hagree : Agree bsize (buf.copy 0 data 0 bsize) (blockAt d loc bsize n) := by
      intro i hi
      have hcopy : buf.copy 0 data 0 bsize (0 + i) = data (0 + i) := Buf.copy_inside buf data hi
      rw [Nat.zero_add] at hcopy
      rw [hcopy]
      exact d.faithful _ _ _ _ hread i hi
    rw [d.steady _ 0] at hread
    exact ⟨_, _, hrun, .inl ⟨rfl, ⟨data, hread⟩, hagree⟩⟩
  · rw [d.steady _ 0] at hread
    exact ⟨_, _, hrun, .inr ⟨fault.code_ne.1, fault, hread⟩⟩

theorem Readable.not_fail {d : Drive} {bsize : Nat} (h : Readable d loc bsize n) :
    d.read 0 (u64 (loc + n * bsize)) bsize ≠ .fail fault left := by
  intro hfail
  obtain ⟨data, hok⟩ := h
  exact Outcome.noConfusion (hok.symm.trans hfail)

section

variable {d : Drive} {loc bsize : Nat}

/-- The probe table finds the root block `p`: the first one of the table, as long as the blocks
before it can be read and the partition does not end. -/
inductive Probed (d : Drive) (loc bsize limit : Nat) : List Nat → Nat → Prop
  | here (hlimit : limit = 0 ∨ mid < limit) (h : RootAt d loc bsize mid) :
      Probed d loc bsize limit (mid :: mids) mid
  | next (hlimit : limit = 0 ∨ mid < limit) (hread : Readable d loc bsize mid)
      (h : ¬ RootAt d loc bsize mid) (hrest : Probed d loc bsize limit mids p) :
      Probed d loc bsize limit (mid :: mids) p

/-- The root block of the partition is `p`: by the geometry of the RDB, or by the probe table. -/
inductive Picked (d : Drive) (loc bsize : Nat) (hint : Hint) : Nat → Prop
  | geometry (hhint : hint.byteSize ≠ 0 ∧ hint.blockSize ≠ 0)
      (h : RootAt d loc bsize (rootCalc (hint.byteSize / hint.blockSize))) :
      Picked d loc bsize hint (rootCalc (hint.byteSize / hint.blockSize))
  | hinted (hhint : hint.byteSize ≠ 0 ∧ hint.blockSize ≠ 0)
      (hno : ¬ RootAt d loc bsize (rootCalc (hint.byteSize / hint.blockSize)))
      (h : Probed d loc bsize (hint.byteSize / hint.blockSize) probeMids p) :
      Picked d loc bsize hint p
  | unhinted (hhint : ¬ (hint.byteSize ≠ 0 ∧ hint.blockSize ≠ 0))
      (h : Probed d loc bsize 0 probeMids p) : Picked d loc bsize hint p

theorem Probed.rootAt (h : Probed d loc bsize limit mids p) : RootAt d loc bsize p := by
  induction h with
  | here hlimit h => exact h
  | next hlimit hread h hrest ih => exact ih

theorem Picked.rootAt (h : Picked d loc bsize hint p) : RootAt d loc bsize p := by
  cases h with
  | geometry hhint h => exact h
  | hinted hhint hno h => exact h.rootAt
  | unhinted hhint h => exact h.rootAt

theorem probeTable_yields (hle : 4 ≤ bsize) (limit : Nat) (mids : List Nat) (buf : Buf) :
    Prog.Yields (probeTable d.toDisk loc bsize limit mids buf) fun x =>
      ∀ p, x.1 = some p → Probed d loc bsize limit mids p := by
  induction mids generalizing buf with
  | nil => exact Prog.Yields.pure fun p hp => absurd hp (Option.some_ne_none p).symm
  | cons mid mids ih =>
    rw [probeTable]
    split_ifs with hend
    · exact Prog.Yields.pure fun p hp => absurd hp (Option.some_ne_none p).symm
    · have hlimit : limit = 0 ∨ mid < limit := by
        by_cases hz : limit = 0
        · exact .inl hz
        · exact .inr (Nat.not_le.1 fun hge => hend ⟨hz, hge⟩)
      apply Prog.Yields.bind (readBlockSz_yields d loc bsize mid buf)
      rintro ⟨ret, b⟩ hread
      dsimp only at hread ⊢
      obtain ⟨hret, hreadable, hagree⟩ | ⟨hret, -⟩ := hread
      · rw [if_neg (not_not.2 hret)]
        by_cases hroot : IsRoot bsize b
        · rw [if_pos hroot]
          apply Prog.Yields.pure
          intro p hp
          obtain rfl := Option.some.inj hp
          exact .here hlimit ⟨hreadable, (IsRoot.of_agree hle hagree).1 hroot⟩
        · rw [if_neg hroot]
          have hno : ¬ RootAt d loc bsize mid :=
            fun h => hroot ((IsRoot.of_agree hle hagree).2 h.2)
          exact (ih b).mono fun x hx p hp => .next hlimit hreadable hno (hx p hp)
      · rw [if_pos hret]
        exact Prog.Yields.pure fun p hp => absurd hp (Option.some_ne_none p).symm

theorem probeCalc_yields (hle : 4 ≤ bsize) (n : Nat) (buf : Buf) :
    Prog.Yields (probeCalc d.toDisk loc bsize n buf) fun x =>
      (∀ p, x.1 = some p → p = rootCalc n ∧ RootAt d loc bsize (rootCalc n)) ∧
        (x.1 = none → ¬ RootAt d loc bsize (rootCalc n)) := by
  rw [probeCalc]
  apply Prog.Yields.bind (readBlockSz_yields d loc bsize (rootCalc n) buf)
  rintro ⟨ret, b⟩ hread
  apply Prog.Yields.pure
  dsimp only at hread ⊢
  obtain ⟨hret, hreadable, hagree⟩ | ⟨hret, fault, hfail⟩ := hread
  · by_cases hroot : IsRoot bsize b
    · rw [if_pos ⟨hret, hroot⟩]
      refine ⟨fun p hp => ⟨(Option.some.inj hp).symm, hreadable, ?_⟩,
        fun h => absurd h (Option.some_ne_none _)⟩
      exact (IsRoot.of_agree hle hagree).1 hroot
    · rw [if_neg fun h => hroot h.2]
      exact ⟨fun p hp => absurd hp (Option.some_ne_none p).symm,
        fun _ h => hroot ((IsRoot.of_agree hle hagree).2 h.2)⟩
  · rw [if_neg fun h => hret h.1]
    exact ⟨fun p hp => absurd hp (Option.some_ne_none p).symm,
      fun _ h => h.1.not_fail hfail⟩

theorem pickRoot_yields (hle : 4 ≤ bsize) (hint : Hint) (buf : Buf) :
    Prog.Yields (pickRoot d.toDisk loc bsize hint buf) fun x =>
      ∀ p, x.1 = some p → Picked d loc bsize hint p := by
  rw [pickRoot]
  by_cases hhint : hint.byteSize ≠ 0 ∧ hint.blockSize ≠ 0
  · rw [if_pos hhint]
    apply Prog.Yields.bind (probeCalc_yields hle _ buf)
    rintro ⟨root, b⟩ ⟨hsome, hnone⟩
    cases root with
    | some root =>
      apply Prog.Yields.pure
      intro p hp
      obtain rfl := Option.some.inj hp
      obtain ⟨heq, hroot⟩ := hsome root rfl
      rw [heq]
      exact .geometry hhint hroot
    | none =>
      exact (probeTable_yields hle _ probeMids b).mono
        fun x hx p hp => .hinted hhint (hnone rfl) (hx p hp)
  · rw [if_neg hhint]
    exact (probeTable_yields hle 0 probeMids buf).mono
      fun x hx p hp => .unhinted hhint (hx p hp)

/-- The root block that `open_volume` computes for itself. -/
def formulaRoot (bsize : Nat) (hint : Hint) (picked : Nat) : Nat :=
  partSizeGuess bsize hint picked / bsize / 2

/-- `g_ffs` is about the picked root block, and has its contents. -/
structure RootRight (d : Drive) (v : Volume) (picked : Nat) : Prop where
  contents : Agree v.bsize v.rootbuf (blockAt d v.partLoc v.bsize v.rootBlock)
  root : IsRoot v.bsize (blockAt d v.partLoc v.bsize v.rootBlock)
  picked : v.rootBlock = picked

/-- The read of the block that `open_volume` computes fails, and leaves the picked root block in
the buffer. -/
def LeftInPlace (d : Drive) (loc bsize : Nat) (hint : Hint) (picked : Nat) : Prop :=
  ∃ fault left, d.read 0 (u64 (loc + formulaRoot bsize hint picked * bsize)) bsize =
      .fail fault left ∧ Agree bsize left (blockAt d loc bsize picked)

theorem openVolume_yields (hle : 4 ≤ bsize) (partSize dt : Nat) (buf : Buf) :
    Prog.Yields (openVolume d.toDisk loc partSize bsize buf dt) fun x =>
      (RootAt d loc bsize (partSize / bsize / 2) ∧
          Agree bsize x.2 (blockAt d loc bsize (partSize / bsize / 2)) ∧
          x.1 = some (volume loc partSize bsize (dt % 2 ^ 8) (partSize / bsize / 2) x.2)) ∨
        x.1 = none ∧ ¬ RootAt d loc bsize (partSize / bsize / 2) ∧
          (Readable d loc bsize (partSize / bsize / 2) ∧
              Agree bsize x.2 (blockAt d loc bsize (partSize / bsize / 2)) ∨
            ∃ fault, d.read 0 (u64 (loc + partSize / bsize / 2 * bsize)) bsize =
              .fail fault x.2) := by
  rw [openVolume]
  apply Prog.Yields.bind (readBlockSz_yields d loc bsize (partSize / bsize / 2) buf)
  rintro ⟨ret, b⟩ hread
  apply Prog.Yields.pure
  dsimp only at hread ⊢
  obtain ⟨hret, hreadable, hagree⟩ | ⟨hret, fault, hfail⟩ := hread
  · by_cases hroot : IsRoot bsize b
    · rw [if_pos ⟨hret, hroot⟩]
      exact .inl ⟨⟨hreadable, (IsRoot.of_agree hle hagree).1 hroot⟩, hagree, rfl⟩
    · rw [if_neg fun h => hroot h.2]
      refine .inr ⟨rfl, fun h => hroot ((IsRoot.of_agree hle hagree).2 h.2), ?_⟩
      exact .inl ⟨hreadable, hagree⟩
  · rw [if_neg fun h => hret h.1]
    exact .inr ⟨rfl, fun h => h.1.not_fail hfail, .inr ⟨fault, hfail⟩⟩

/-- The volume is right if `open_volume` computes the block that has been picked. -/
theorem openPicked_yields (hle : 4 ≤ bsize) (hint : Hint) (dt : Nat) (hroot : RootAt d loc bsize p)
    (buf : Buf) :
    Prog.Yields (openPicked d.toDisk loc bsize hint dt p buf) fun x =>
      (RootRight d x.1 p ↔
        formulaRoot bsize hint p = p ∨ LeftInPlace d loc bsize hint p) := by
  rw [openPicked]
  apply Prog.Yields.bind (openVolume_yields hle (partSizeGuess bsize hint p) dt buf)
  rw [← formulaRoot]
  rintro ⟨v, b⟩ hopen
  apply Prog.Yields.pure
  dsimp only at hopen ⊢
  obtain ⟨hat, hagree, rfl⟩ | ⟨rfl, hno, hbuf⟩ := hopen
  · -- `open_volume` has found a root block of its own
    constructor
    · intro hright
      exact .inl hright.picked
    · intro h
      obtain heq | ⟨fault, left, hfail, -⟩ := h
      · exact ⟨hagree, hat.2, heq⟩
      · exact absurd hfail hat.1.not_fail
  · -- the fallback: the block of the other address is in the buffer
    constructor
    · intro hright
      have hcontents : Agree bsize b (blockAt d loc bsize p) := hright.contents
      obtain ⟨hreadable, hagree⟩ | ⟨fault, hfail⟩ := hbuf
      · have hsame := (IsRoot.of_agree hle hagree).symm.trans (IsRoot.of_agree hle hcontents)
        exact absurd ⟨hreadable, hsame.2 hroot.2⟩ hno
      · exact .inr ⟨fault, b, hfail, hcontents⟩
    · intro h
      obtain heq | ⟨fault, left, hfail, hleft⟩ := h
      · rw [heq] at hno
        exact absurd hroot hno
      · obtain ⟨hreadable, -⟩ | ⟨fault', hfail'⟩ := hbuf
        · exact absurd hfail hreadable.not_fail
        · obtain ⟨-, rfl⟩ := Outcome.fail.inj (hfail'.symm.trans hfail)
          exact ⟨hleft, hroot.2, rfl⟩

/-- Whenever `amiga_ffs` gets past its open step, the volume is right just if `open_volume` computes
the block that has been picked. -/
theorem mount_rootRight_iff (d : Drive) (stack iobuf : Buf) (loc : Nat) (hint : Hint) :
    Prog.Yields (mount d.toDisk stack iobuf loc hint) fun x => ∀ v buf, x = some (v, buf) →
      ∃ p, Picked d loc (fsBsize hint) hint p ∧
        (RootRight d v p ↔ formulaRoot (fsBsize hint) hint p = p ∨
          LeftInPlace d loc (fsBsize hint) hint p) := by
  have hnone : ∀ v buf, (none : Option (Volume × Buf)) = some (v, buf) →
      ∃ p, Picked d loc (fsBsize hint) hint p ∧
        (RootRight d v p ↔ formulaRoot (fsBsize hint) hint p = p ∨
          LeftInPlace d loc (fsBsize hint) hint p) :=
    fun v buf h => absurd h (Option.some_ne_none _).symm
  rw [mount]
  apply Prog.Yields.bind (readBlockSz_yields d loc (fsBsize hint) 0 stack)
  rintro ⟨ret, bootbuf⟩ -
  dsimp only
  cases bootDosType ret bootbuf with
  | none => exact Prog.Yields.pure hnone
  | some dt =>
    apply Prog.Yields.bind (pickRoot_yields (le_fsBsize hint) hint iobuf)
    rintro ⟨root, b⟩ hpicked
    dsimp only
    cases root with
    | none => exact Prog.Yields.pure hnone
    | some p =>
      have hp : Picked d loc (fsBsize hint) hint p := hpicked p rfl
      apply Prog.Yields.bind (openPicked_yields (le_fsBsize hint) hint dt hp.rootAt b)
      rintro ⟨v', b'⟩ hright
      apply Prog.Yields.pure
      intro v buf hsome
      obtain ⟨rfl, rfl⟩ := Prod.mk.inj (Option.some.inj hsome)
      exact ⟨p, hp, hright⟩

end

/-- A partition of three blocks, whose root block is the last one. -/
def oddDrive : Drive where
  toImageDisk := Disk.ofImage (written [be 0 4 0x444F5300, be 1024 4 tHeader,
    be 1044 4 0xFFFFFFFD, be 1532 4 stRoot])
  steady _ _ _ _ := rfl

/-- `open_volume` reads block 1, and its zeros become the root block. -/
theorem oddDrive_misses :
    ¬ Prog.Yields (mount oddDrive.toDisk (fun _ => 0) (fun _ => 0) 0 ⟨1536, 512⟩) fun x =>
      ∀ v buf, x = some (v, buf) →
        ∃ p, Picked oddDrive 0 (fsBsize ⟨1536, 512⟩) ⟨1536, 512⟩ p ∧ RootRight oddDrive v p := by
  intro h
  obtain ⟨x, w', hrun, hright⟩ := h Rdb.boot
  have hfacts : ((mount oddDrive.toDisk (fun _ => 0) (fun _ => 0) 0 ⟨1536, 512⟩).run 0
      Rdb.boot).map (fun y => y.1.map fun z => (z.1.bsize, be32 z.1.rootbuf 0)) =
        some (some (512, 0)) := by decide +kernel
  cases hmount : (mount oddDrive.toDisk (fun _ => 0) (fun _ => 0) 0 ⟨1536, 512⟩).run 0 Rdb.boot with
  | none =>
    rw [hmount] at hfacts
    exact absurd hfacts (by decide)
  | some y =>
    obtain ⟨rfl, -⟩ := hrun.unique ⟨0, hmount⟩
    rw [hmount] at hfacts
    obtain ⟨x, w''⟩ := y
    cases x with
    | none => exact absurd (Option.some.inj hfacts).symm (Option.some_ne_none _)
    | some z =>
      obtain ⟨v, buf⟩ := z
      obtain ⟨hbsize, hzero⟩ := Prod.mk.inj (Option.some.inj (Option.some.inj hfacts))
      obtain ⟨p, -, hright⟩ := hright v buf rfl
      have hheader : be32 v.rootbuf 0 = tHeader :=
        (hright.contents.be32 (by rw [show v.bsize = 512 from hbsize]; decide)).trans hright.root.1
      exact absurd (hheader.symm.trans hzero) (by decide)

theorem formulaRoot_known (bsize : Nat) (hint : Hint) (p : Nat) (hpos : hint.byteSize ≠ 0)
    (hle : hint.byteSize ≤ 0xFFFFFFFF) :
    formulaRoot bsize hint p = hint.byteSize / bsize / 2 := by
  rw [formulaRoot, partSizeGuess, if_pos ⟨hpos, hle⟩]

/-- The geometry of the RDB gives the block that `open_volume` computes for partitions of an even
number of blocks only. -/
theorem formulaRoot_geometry_iff {hint : Hint} (hpos : hint.byteSize ≠ 0)
    (hle : hint.byteSize ≤ 0xFFFFFFFF) (hmin : bsizeDefault ≤ hint.blockSize)
    (hmax : hint.blockSize ≤ maxBsize) :
    formulaRoot (fsBsize hint) hint (rootCalc (hint.byteSize / hint.blockSize)) =
        rootCalc (hint.byteSize / hint.blockSize) ↔
      hint.byteSize / hint.blockSize % 2 = 0 := by
  rw [formulaRoot_known _ _ _ hpos hle, fsBsize, if_pos ⟨hmin, hmax⟩]
  have hfew : hint.byteSize / hint.blockSize ≤ 0xFFFFFFFF / 512 :=
    (Nat.div_le_div_right hle).trans (Nat.div_le_div_left hmin (by decide))
  generalize hint.byteSize / hint.blockSize = n at hfew ⊢
  rw [rootCalc, u32, u32, u64]
  omega

/-- Without a usable hint the block that has been picked must be in the first 4 GiB. -/
theorem formulaRoot_guess_iff {bsize : Nat} (hsize : 0 < bsize) (hint : Hint) (p : Nat)
    (hno : ¬ (hint.byteSize ≠ 0 ∧ hint.byteSize ≤ 0xFFFFFFFF)) :
    formulaRoot bsize hint p = p ↔ p * 2 * bsize < 2 ^ 32 := by
  rw [formulaRoot, partSizeGuess, if_neg hno, u32, Nat.div_div_eq_div_mul]
  constructor
  · intro heq
    by_contra hge
    have hlt : p * 2 * bsize % 2 ^ 32 < bsize * 2 * p := by
      calc p * 2 * bsize % 2 ^ 32 < 2 ^ 32 := Nat.mod_lt _ (by decide)
        _ ≤ p * 2 * bsize := Nat.not_lt.1 hge
        _ = bsize * 2 * p := by rw [Nat.mul_comm, Nat.mul_comm p 2, Nat.mul_assoc]
    exact absurd heq (Nat.ne_of_lt (Nat.div_lt_of_lt_mul hlt))
  · intro hlt
    rw [Nat.mod_eq_of_lt hlt, Nat.mul_assoc, Nat.mul_comm 2 bsize]
    exact Nat.mul_div_cancel p (Nat.mul_pos hsize (by decide))

end Ffs
end Pegasos2.Fs
