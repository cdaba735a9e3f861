import Pegasos2.AmigaPfs3
import Pegasos2.VolumeBlocks

namespace Pegasos2.Fs
open Program
open PartitionPkg (Agree)
set_option autoImplicit true

namespace Pfs

/-- `g_pfs` is about the partition at `loc`, which has the root block `root`. -/
structure IsOpen (v : Volume) (loc : Nat) (root : Buf) : Prop where
  partLoc : v.partLoc = loc
  anodesPerBlock : v.anodesPerBlock = 41
  entriesPerIb : v.entriesPerIb = 125
  index : ∀ i < 99, v.indexblocks i = be32 root (116 + i * 4)

theorem RootOk.of_agree (h : Agree bsize b c) (hok : RootOk dostype b) : RootOk dostype c := by
  have hdt : be32 b 0 = be32 c 0 := h.be32 (by decide)
  have hoptions : be32 b 4 = be32 c 4 := h.be32 (by decide)
  have hblk : be16 b 64 = be16 c 64 := Agree.be16 h (by decide)
  have hsize : be32 b 84 = be32 c 84 := h.be32 (by decide)
  have hfirst : be32 b 56 = be32 c 56 := h.be32 (by decide)
  have hlast : be32 b 52 = be32 c 52 := h.be32 (by decide)
  rw [RootOk] at hok ⊢
  rwa [hdt, hoptions, hblk, hsize, hfirst, hlast] at hok

theorem isOpen_volume (dt : Nat) (hblk : be16 b 64 = bsize) (h : Agree bsize b root) :
    IsOpen (volume loc dt b) loc root := by
  constructor
  · rfl
  · show (be16 b 64 - 16) / 12 = 41
    rw [hblk]
    rfl
  · show (be16 b 64 - 12) / 4 = 125
    rw [hblk]
    rfl
  · intro i hi
    have hin : 116 + i * 4 + 4 ≤ bsize := by
      rw [bsize]
      omega
    exact h.be32 hin

theorem pfsOpenVolume_isOpen {d : Disk} (hd : d.HasBlocks loc block) (dostype : Nat) (buf : Buf) :
    Prog.Yields (pfsOpenVolume d loc dostype buf) fun x =>
      (∀ v, x = some v → ∃ root, block 2 = some root ∧ IsOpen v loc root) ∧
        ∀ root, block 2 = some root → RootOk dostype root → x ≠ none := by
  apply Prog.Yields.bind (hd 2 buf)
  rintro ⟨ret, b⟩ (⟨hret, root, hroot, hagree⟩ | ⟨hret, hnone⟩)
  · apply Prog.Yields.pure
    by_cases hok : ret = .noError ∧ RootOk dostype b
    · rw [if_pos hok]
      refine ⟨?_, fun _ _ _ => Option.some_ne_none _⟩
      intro v hv
      obtain rfl := Option.some.inj hv
      exact ⟨root, hroot, isOpen_volume _ hok.2.2.2.1 hagree⟩
    · rw [if_neg hok]
      refine ⟨fun v hv => absurd hv (Option.some_ne_none v).symm, ?_⟩
      intro root' hroot' hok'
      cases hroot.symm.trans hroot'
      exact absurd ⟨hret, hok'.of_agree fun i hi => (hagree i hi).symm⟩ hok
  · apply Prog.Yields.pure
    rw [if_neg fun h => hret h.1]
    refine ⟨fun v hv => absurd hv (Option.some_ne_none v).symm, ?_⟩
    intro root hroot
    cases hnone.symm.trans hroot

/-- The number of the index block of anode `n`. -/
def indexPtr (root : Buf) (n : Nat) : Nat := be32 root (116 + n / 41 / 125 * 4)

/-- The number of the anode block of anode `n`. -/
def anodePtr (ib : Buf) (n : Nat) : Nat := be32 ib (12 + n / 41 % 125 * 4)

/-- Anode `n` of a volume, in slot `n % 41` of an anode block. -/
inductive AnodeAt (block : Nat → Option Buf) (root : Buf) (n : Nat) : Extent → Prop where
  | slot (hn : n < 99 * 125 * 41) (hindex : indexPtr root n ≠ 0)
      (hib : block (indexPtr root n) = some ib) (hibId : be16 ib 0 = idIb)
      (hanode : anodePtr ib n ≠ 0) (hab : block (anodePtr ib n) = some ab)
      (habId : be16 ab 0 = idAb) : AnodeAt block root n (anode ab (16 + n % 41 * 12))

theorem anode_congr (h : Agree bsize b c) (hi : i < 41) :
    anode b (16 + i * 12) = anode c (16 + i * 12) := by
  have hblocks : be32 b (16 + i * 12) = be32 c (16 + i * 12) := h.be32 (by rw [bsize]; omega)
  have hfirst : be32 b (16 + i * 12 + 4) = be32 c (16 + i * 12 + 4) :=
    h.be32 (by rw [bsize]; omega)
  have hnext : be32 b (16 + i * 12 + 8) = be32 c (16 + i * 12 + 8) := h.be32 (by rw [bsize]; omega)
  rw [anode, anode, hblocks, hfirst, hnext]

/-- The answer to a search for anode `n`. Blocks that cannot be read may give other errors. -/
def AnodeAnswer (block : Nat → Option Buf) (root : Buf) (n : Nat) (r : Except Retcode Extent) :
    Prop :=
  (∃ x, r = .ok x ∧ AnodeAt block root n x) ∨
    ∃ ret, r = .error ret ∧ (∀ x, ¬ AnodeAt block root n x) ∧
      ((∀ n, block n ≠ none) → ret = .eReadError)

theorem AnodeAnswer.missing (h : ∀ x, ¬ AnodeAt block root n x) :
    AnodeAnswer block root n (.error .eReadError) := .inr ⟨_, rfl, h, fun _ => rfl⟩

theorem AnodeAnswer.unreadable (hm : block m = none) (h : ∀ x, ¬ AnodeAt block root n x) :
    AnodeAnswer block root n (.error ret) := .inr ⟨ret, rfl, h, fun hall => absurd hm (hall m)⟩

section

variable {d : Disk} {loc : Nat} {block : Nat → Option Buf} (hd : d.HasBlocks loc block)
  {v : Volume} (stack : Buf)

include hd

theorem indexed_answers (hv : IsOpen v loc root) (hn : n < 99 * 125 * 41)
    (hindex : indexPtr root n ≠ 0) (hib : block (indexPtr root n) = some ib)
    (hagree : Agree bsize b ib) :
    Prog.Yields (indexed d stack v (n / 41 % 125) (n % 41) .noError b)
      (AnodeAnswer block root n) := by
  have hin : 12 + n / 41 % 125 * 4 + 4 ≤ bsize := by
    rw [bsize]
    omega
  have hid : be16 b 0 = be16 ib 0 := Agree.be16 hagree (by decide)
  have hptr : be32 b (12 + n / 41 % 125 * 4) = anodePtr ib n := hagree.be32 hin
  rw [indexed, if_neg (not_not.2 rfl), hid, hptr]
  split_ifs with hibId hanode
  · apply Prog.Yields.pure
    apply AnodeAnswer.missing
    intro x hx
    cases hx with
    | slot _ _ hib' hibId' _ _ _ =>
      cases hib.symm.trans hib'
      exact hibId hibId'
  · apply Prog.Yields.pure
    apply AnodeAnswer.missing
    intro x hx
    cases hx with
    | slot _ _ hib' _ hanode' _ _ =>
      cases hib.symm.trans hib'
      exact hanode' hanode
  · rw [hv.partLoc]
    apply Prog.Yields.bind (hd (anodePtr ib n) stack)
    rintro ⟨ret, b'⟩ (⟨hret, ab, hab, hagree'⟩ | ⟨hret, hnone⟩)
    · apply Prog.Yields.pure
      have hid' : be16 b' 0 = be16 ab 0 := Agree.be16 hagree' (by decide)
      dsimp only at hret ⊢
      rw [anodeIn, if_neg (not_not.2 hret), hid']
      split_ifs with habId
      · apply AnodeAnswer.missing
        intro x hx
        cases hx with
        | slot _ _ hib' _ _ hab' habId' =>
          cases hib.symm.trans hib'
          cases hab.symm.trans hab'
          exact habId habId'
      · left
        refine ⟨_, rfl, ?_⟩
        rw [anode_congr hagree' (Nat.mod_lt n (by decide))]
        exact .slot hn hindex hib (not_not.1 hibId) hanode hab (not_not.1 habId)
    · apply Prog.Yields.pure
      rw [anodeIn, if_pos hret]
      apply AnodeAnswer.unreadable hnone
      intro x hx
      cases hx with
      | slot _ _ hib' _ _ hab' _ =>
        cases hib.symm.trans hib'
        cases hnone.symm.trans hab'

theorem pfsGetAnode_answers (hv : IsOpen v loc root) (n : Nat) :
    Prog.Yields (pfsGetAnode d stack v n) (AnodeAnswer block root n) := by
  have hdivs : n / 41 / 125 < 99 ↔ n < 99 * 125 * 41 := by
    rw [Nat.div_div_eq_div_mul, Nat.div_lt_iff_lt_mul (by decide)]
  rw [pfsGetAnode, hv.anodesPerBlock, hv.entriesPerIb, if_neg (by decide)]
  dsimp only
  rw [smallNumIndexblocks]
  split_ifs with hlarge hindex
  · apply Prog.Yields.pure
    apply AnodeAnswer.missing
    intro x hx
    cases hx with
    | slot hn _ _ _ _ _ _ => exact absurd (hdivs.2 hn) (Nat.not_lt.2 hlarge)
  · apply Prog.Yields.pure
    rw [hv.index _ (Nat.not_le.1 hlarge)] at hindex
    apply AnodeAnswer.missing
    intro x hx
    cases hx with
    | slot _ hindex' _ _ _ _ _ => exact hindex' hindex
  · have hn := hdivs.1 (Nat.not_le.1 hlarge)
    rw [hv.index _ (Nat.not_le.1 hlarge)] at hindex ⊢
    rw [hv.partLoc]
    apply Prog.Yields.bind (hd (indexPtr root n) stack)
    rintro ⟨ret, b⟩ (⟨hret, ib, hib, hagree⟩ | ⟨hret, hnone⟩)
    · dsimp only at hret hagree ⊢
      rw [hret]
      exact indexed_answers hd stack hv hn hindex hib hagree
    · dsimp only at hret ⊢
      rw [indexed, if_pos hret]
      apply Prog.Yields.pure
      apply AnodeAnswer.unreadable hnone
      intro x hx
      cases hx with
      | slot _ _ hib _ _ _ _ => cases hnone.symm.trans hib

theorem pfsGetAnode_finds (hv : IsOpen v loc root) (h : AnodeAt block root n x) :
    Prog.Yields (pfsGetAnode d stack v n) (· = .ok x) := by
  apply (pfsGetAnode_answers hd stack hv n).mono
  rintro r (⟨y, rfl, hy⟩ | ⟨ret, -, hnone, -⟩)
  · cases h with
    | slot _ _ hib _ _ hab _ =>
      cases hy with
      | slot _ _ hib' _ _ hab' _ =>
        cases hib.symm.trans hib'
        cases hab.symm.trans hab'
        rfl
  · exact absurd h (hnone x)

end

/-- On every volume that is opened anodes are found by their numbers, and a file whose anodes cover
its size is read from its first byte to its last one. -/
theorem pfsGetAnode_exact (d : ImageDisk) (stack buf : Buf) (loc dostype : Nat) (hd : d.Reads) :
    Prog.Yields (pfsOpenVolume d.toDisk loc dostype buf) fun x => ∀ v, x = some v →
      (∀ n x, AnodeAt (d.blocks loc) (d.block loc 2) n x →
        Prog.Yields (pfsGetAnode d.toDisk stack v n) (· = .ok x)) ∧
      (∀ n, (∀ x, ¬ AnodeAt (d.blocks loc) (d.block loc 2) n x) →
        Prog.Yields (pfsGetAnode d.toDisk stack v n) (· = .error .eReadError)) ∧
      ∀ first chain last byteSize out,
        FileChain (AnodeAt (d.blocks loc) (d.block loc 2)) first chain last →
        chain.length ≤ 65536 → byteSize ≤ (blockList chain).length * bsize →
        Prog.Yields (pfsReadFile d.toDisk stack v first byteSize out)
          (· = (.noError, ⟨byteSize, out.copy 0 (concat (d.block loc) (blockList chain)) 0
            byteSize⟩)) := by
  have hblocks := hd.hasBlocks loc
  apply (pfsOpenVolume_isOpen hblocks dostype buf).mono
  rintro x ⟨hopen, -⟩ v rfl
  obtain ⟨root, hroot, hv⟩ := hopen v rfl
  cases hroot
  have hfinds (n : Nat) (x : Extent) (h : AnodeAt (d.blocks loc) (d.block loc 2) n x) :
      Prog.Yields (pfsGetAnode d.toDisk stack v n) (· = .ok x) :=
    pfsGetAnode_finds hblocks stack hv h
  refine ⟨hfinds, fun n hnone => ?_, fun first chain last byteSize out hchain hlen hsize => ?_⟩
  · apply (pfsGetAnode_answers hblocks stack hv n).mono
    rintro r (⟨x, -, hx⟩ | ⟨ret, rfl, -, hret⟩)
    · exact absurd hx (hnone x)
    · rw [hret fun n => Option.some_ne_none _]
  · rw [pfsReadFile, hv.partLoc]
    exact readFile_fills hd stack out hfinds hchain hlen hsize

/-- A volume with a file in block 5, which anode 5 names. -/
def oneAnodeDisk : ImageDisk :=
  Disk.ofImage (written [be 1024 4 dtPfs1, be 1076 4 5, be 1080 4 3, be 1088 2 512, be 1108 4 100,
    be 1140 4 3, be 1536 2 idIb, be 1548 4 4, be 2048 2 idAb, be 2124 4 1, be 2128 4 5,
    slice 2560 [0x68, 0x69]])

theorem oneAnode_root : RootOk dtPfs1 (oneAnodeDisk.block 0 2) := by decide +kernel

theorem oneAnode_anode : AnodeAt (oneAnodeDisk.blocks 0) (oneAnodeDisk.block 0 2) 5 ⟨5, 1, 0⟩ := by
  have hindex : indexPtr (oneAnodeDisk.block 0 2) 5 = 3 := by decide +kernel
  have hanode : anodePtr (oneAnodeDisk.block 0 3) 5 = 4 := by decide +kernel
  have hblocks : be32 (oneAnodeDisk.block 0 4) (16 + 5 % 41 * 12) = 1 := by decide +kernel
  have hfirst : be32 (oneAnodeDisk.block 0 4) (16 + 5 % 41 * 12 + 4) = 5 := by decide +kernel
  have hnext : be32 (oneAnodeDisk.block 0 4) (16 + 5 % 41 * 12 + 8) = 0 := by decide +kernel
  have hslot : AnodeAt (oneAnodeDisk.blocks 0) (oneAnodeDisk.block 0 2) 5
      (anode (oneAnodeDisk.block 0 4) (16 + 5 % 41 * 12)) := by
    apply AnodeAt.slot (by decide)
    · rw [hindex]
      decide
    · rw [hindex]
      rfl
    · decide +kernel
    · rw [hanode]
      decide
    · rw [hanode]
      rfl
    · decide +kernel
  rwa [anode, hblocks, hfirst, hnext] at hslot

theorem pfsGetAnode_exact_oneAnode :
    Prog.Yields (pfsOpenVolume oneAnodeDisk.toDisk 0 dtPfs1 fun _ => 0) fun x => ∃ v, x = some v ∧
      Prog.Yields (pfsGetAnode oneAnodeDisk.toDisk (fun _ => 0) v 5) (· = .ok ⟨5, 1, 0⟩) ∧
      Prog.Yields (pfsGetAnode oneAnodeDisk.toDisk (fun _ => 0) v 507375)
        (· = .error .eReadError) ∧
      Prog.Yields (pfsReadFile oneAnodeDisk.toDisk (fun _ => 0) v 5 2 fun _ => 0)
        (· = (.noError, ⟨2, Buf.copy (fun _ => 0) 0 (concat (oneAnodeDisk.block 0) [5]) 0 2⟩)) := by
  have hd : oneAnodeDisk.Reads := ofImage_reads _
  have hopen := pfsOpenVolume_isOpen (hd.hasBlocks 0) dtPfs1 fun _ => 0
  apply (hopen.and (pfsGetAnode_exact oneAnodeDisk (fun _ => 0) (fun _ => 0) 0 dtPfs1 hd)).mono
  rintro x ⟨⟨-, hsome⟩, hx⟩
  obtain ⟨v, rfl⟩ := Option.ne_none_iff_exists'.1 (hsome _ rfl oneAnode_root)
  obtain ⟨hfinds, hmissing, hreads⟩ := hx v rfl
  refine ⟨v, rfl, hfinds 5 _ oneAnode_anode, hmissing 507375 fun x hx => ?_, ?_⟩
  · cases hx with
    | slot hn _ _ _ _ _ _ => exact absurd hn (by decide)
  · exact hreads 5 [⟨5, 1, 0⟩] 0 2 (fun _ => 0)
      (.cons (by decide) oneAnode_anode Nat.one_ne_zero .nil) (by decide) (by decide)

end Pfs

end Pegasos2.Fs
