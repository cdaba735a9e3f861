import Pegasos2.FsExfat
import Pegasos2.MkExfat

namespace Pegasos2.Fs
open Program
open PartitionPkg (Agree)
set_option autoImplicit true

namespace Exfat

open MkExfat (putFat putChain buildFat fatByte clusterCount fileClusters bootSectorFields
  rootDirFields buildImage)

theorem putFat_spec (h : putFat idx val fat = some fat') :
    idx < 1024 ∧ fat' = Function.update fat idx (val % 2 ^ 32) := by
  rw [putFat] at h
  split_ifs at h with hidx
  refine ⟨?_, (Option.some.inj h).symm⟩
  rw [MkExfat.fatLen, MkExfat.sector] at hidx
  omega

theorem putChain_spec (h : putChain first n fat = some fat') (i : Nat) (hi : i < n) :
    first + i < 1024 ∧ fat' (first + i) = (first + i + 1) % 2 ^ 32 := by
  induction n generalizing fat' with
  | zero => omega
  | succ n ih =>
    obtain ⟨fat₁, hchain, hput⟩ := Option.bind_eq_some_iff.1 h
    obtain ⟨hlt, rfl⟩ := putFat_spec hput
    by_cases hin : i = n
    · subst hin
      exact ⟨hlt, Function.update_self ..⟩
    · obtain ⟨hlt', hval⟩ := ih hchain (by omega)
      rw [Function.update_of_ne (by omega)]
      exact ⟨hlt', hval⟩

theorem buildFat_spec (h : buildFat 3 n = some fat) :
    n ≤ 1021 ∧ ∀ i, i + 1 < n → fat (3 + i) = 3 + i + 1 := by
  rw [buildFat] at h
  obtain ⟨fat₀, -, h⟩ := Option.bind_eq_some_iff.1 h
  obtain ⟨fat₁, -, h⟩ := Option.bind_eq_some_iff.1 h
  obtain ⟨fat₂, -, h⟩ := Option.bind_eq_some_iff.1 h
  obtain ⟨fat₃, hchain, h⟩ := Option.bind_eq_some_iff.1 h
  obtain ⟨hlast, rfl⟩ := putFat_spec h
  refine ⟨by omega, fun i hi => ?_⟩
  obtain ⟨hlt, hval⟩ := putChain_spec hchain i (by omega)
  rw [Function.update_of_ne (by omega), hval, Nat.mod_eq_of_lt (by omega)]

def fileName : List UInt8 := [0x74, 0x65, 0x73, 0x74, 0x2E, 0x65, 0x6C, 0x66]

/-- The generated volume. -/
structure Generated (payload : List UInt8) (n : Nat) (blocks : Nat → Buf) : Prop where
  room : 3 + fileClusters payload ≤ clusterCount n + 1
  count : 3 ≤ clusterCount n
  small : fileClusters payload ≤ 1021
  boot : Holds bsize (bootSectorFields n (clusterCount n)) (blocks 0)
  rootDir : Holds bsize (rootDirFields fileName 3 payload.length) (blocks 32)
  fat : ∀ i, i + 1 < fileClusters payload → ∀ b, Agree bsize b (blocks (24 + (3 + i) * 4 / 512)) →
    le32 b ((3 + i) * 4 % 512) = 3 + i + 1
  file : HoldsFile blocks 40 payload

theorem lt_fileClusters (h : i * 8 * bsize < payload.length) : i < fileClusters payload := by
  have hcluster : MkExfat.cluster = 4096 := rfl
  rw [bsize] at h
  rw [fileClusters, hcluster]
  apply (Nat.le_div_iff_mul_le (by decide)).2
  omega

theorem clusterCount_le (n : Nat) : 32 + clusterCount n * 8 ≤ n ∨ clusterCount n = 0 := by
  rw [clusterCount, MkExfat.clusheapOff, MkExfat.spcShift, Nat.shiftRight_eq_div_pow]
  omega

theorem buildImage_generated (h : buildImage n payload = some blocks) :
    Generated payload n blocks := by
  rw [buildImage] at h
  split_ifs at h with hcount hroom
  obtain ⟨rootDir, hrootDir, h⟩ := Option.bind_eq_some_iff.1 h
  obtain ⟨fat, hfat, h⟩ := Option.bind_eq_some_iff.1 h
  obtain ⟨mainBoot, hmain, h⟩ := Option.bind_eq_some_iff.1 h
  obtain ⟨extBoot, -, h⟩ := Option.bind_eq_some_iff.1 h
  have hfun := Option.some.inj h
  have hboot' : blocks 0 = mainBoot := by rw [← hfun]; rfl
  have hrootDir' : blocks 32 = fun i => rootDir ((32 - 32) * MkExfat.sector + i) := by
    rw [← hfun]
    rfl
  have hfat' (k : Nat) (hlo : 24 ≤ k) (hhi : k < 32) :
      blocks k = fun i => fatByte fat ((k - 24) * MkExfat.sector + i) := by
    rw [← hfun]
    dsimp only
    rw [if_neg (by omega), if_neg (by omega), if_pos hlo]
  have hfile (i : Nat) : blocks (40 + i) = chunk payload i := by
    rw [← hfun]
    dsimp only
    rw [if_pos (Nat.le_add_right _ _), Nat.add_sub_cancel_left]
  obtain ⟨hsmall, hlinks⟩ := buildFat_spec hfat
  constructor
  · exact Nat.not_lt.1 hroom
  · exact Nat.not_lt.1 hcount
  · exact hsmall
  · rw [hboot']
    exact packed_holds hmain bsize
  · rw [hrootDir']
    apply (packed_holds hrootDir bsize).of_agree
    intro i _
    rw [Nat.sub_self, Nat.zero_mul, Nat.zero_add]
  · intro i hi b hb
    rw [hfat' _ (Nat.le_add_right _ _) (by omega)] at hb
    apply le32_of_bytes (by omega)
    intro j hj
    rw [hb _ (by rw [bsize]; omega)]
    dsimp only
    rw [fatByte, Nat.add_sub_cancel_left, MkExfat.sector]
    have hpos : (3 + i) * 4 / 512 * 512 + ((3 + i) * 4 % 512 + j) = (3 + i) * 4 + j := by omega
    have hentry : ((3 + i) * 4 + j) / 4 = 3 + i := by omega
    have hbyte : ((3 + i) * 4 + j) % 4 = j := by omega
    rw [hpos, hentry, hbyte, hlinks i hi]
  · intro i _
    rw [hfile]
    exact fun _ _ => rfl

section Load

variable {d : Disk} {loc n : Nat} {payload : List UInt8} {blocks : Nat → Buf}

/-- `g_ex` for the generated volume. -/
def mounted (loc clusterCount : Nat) : Volume := ⟨loc, bsize, 8, 4096, 24, 32, clusterCount, 2⟩

theorem mounted_hasCluster (hcount : count + 1 < 2 ^ 32) :
    (mounted loc count).HasCluster c ↔ 2 ≤ c ∧ c ≤ count + 1 := by
  rw [Volume.HasCluster, mounted, u32, Nat.mod_eq_of_lt hcount]

theorem readSector_generated (hd : Serves d loc n blocks) (hk : k < n) (buf : Buf) :
    Prog.Yields (readSector d (mounted loc count) k buf) fun x =>
      x.1 = .noError ∧ Agree bsize x.2 (blocks k) := hd.filesysReadBytes hk buf

theorem Generated.sectors_le (hg : Generated payload n blocks) :
    32 + clusterCount n * 8 ≤ n := by
  have hcount := hg.count
  obtain h | h := clusterCount_le n
  · exact h
  · omega

theorem exfatOpenVolume_generated (hd : Serves d loc n blocks) (hg : Generated payload n blocks)
    (hcount : clusterCount n + 1 < 2 ^ 32) (buf : Buf) :
    Prog.Yields (exfatOpenVolume d loc buf) fun x => x = some (mounted loc (clusterCount n)) := by
  have hsectors := hg.sectors_le
  have hfits := hd.fits
  have hloc : u64 (loc + 0 * bsize) = loc := by
    rw [Nat.zero_mul, Nat.add_zero, u64]
    apply Nat.mod_eq_of_lt
    rw [bsize] at hfits
    omega
  have hread := hd.filesysReadBytes (k := 0) (by omega) buf
  rw [hloc] at hread
  apply Prog.Yields.bind hread
  rintro ⟨ret, b⟩ ⟨hret, hb⟩
  have hboot := hg.boot.of_agree hb
  have hmagic : bytes b 3 8 = magic :=
    (bytes_of_holds hboot (show lookup 3 8 false _ = some (ofBytes magic) from rfl)
      (by decide)).trans (by decide)
  have hsign : le16 b 510 = 0xAA55 := hboot.le16 rfl (by decide)
  have hbps : b.nat 108 = 9 := hboot.nat rfl (by decide)
  have hspc : b.nat 109 = 3 := hboot.nat rfl (by decide)
  have hfat : le32 b 80 = 24 := hboot.le32 rfl (by decide)
  have hheap : le32 b 88 = 32 := hboot.le32 rfl (by decide)
  have hclusters : le32 b 92 = clusterCount n := hboot.le32 rfl (by decide)
  have hroot : le32 b 96 = 2 := hboot.le32 rfl (by decide)
  have hvolume : volume loc b = mounted loc (clusterCount n) := by
    rw [volume, hbps, hspc, hfat, hheap, hclusters, hroot]
    rfl
  have hok : BootOk loc b := by
    rw [BootOk, hvolume, hbps, hspc, mounted_hasCluster hcount]
    refine ⟨hmagic, hsign, rfl, by decide, ⟨Nat.le_refl 2, ?_⟩, ?_, ?_⟩
    · exact Nat.le_trans (Nat.le_of_succ_le hg.count) (Nat.le_succ _)
    · exact Nat.succ_ne_zero 4095
    · show 4096 ≤ 32 * 1024
      decide
  apply Prog.Yields.pure
  rw [if_pos ⟨hret, hok⟩, hvolume]

/-- The units of the name. -/
def nameUtf16 : List (UInt8 × UInt8) := fileName.map fun c => (c, 0)

theorem nameUnits_generated (hg : Generated payload n blocks) (hb : Agree bsize b (blocks 32)) :
    nameUnits b 64 8 = nameUtf16 := by
  have hdir := hg.rootDir.of_agree hb
  have hl : lookup 66 30 false (rootDirFields fileName 3 payload.length).reverse =
      some (ofBytes (MkExfat.nameChunk fileName 0)) := rfl
  have hbyte (j : Nat) (hj : j < 30) :
      b (66 + j) = .ofNat (ofBytes (MkExfat.nameChunk fileName 0) / 256 ^ (30 - 1 - j)) :=
    hdir.byte_of_slice hl (by decide) hj
  have hunits : nameUnits b 64 8 = (List.range 8).map fun i =>
      (UInt8.ofNat (ofBytes (MkExfat.nameChunk fileName 0) / 256 ^ (30 - 1 - i * 2)),
        UInt8.ofNat (ofBytes (MkExfat.nameChunk fileName 0) / 256 ^ (30 - 1 - (i * 2 + 1)))) := by
    apply List.map_congr_left
    intro i hi
    have hi := List.mem_range.1 hi
    rw [← hbyte (i * 2) (by omega), ← hbyte (i * 2 + 1) (by omega)]
    rfl
  rw [hunits]
  decide

/-- What the stream entry says of the file. -/
structure StreamOf (payload : List UInt8) (stream : Buf) : Prop where
  flags : stream.nat 1 = 1
  nameLength : stream.nat 3 = 8
  first : le32 stream 20 = 3
  length : le32 stream 24 = payload.length
  high : le32 stream 28 = 0

theorem length_lt (hg : Generated payload n blocks) : payload.length < 2 ^ 32 := by
  have hsmall := hg.small
  by_contra hlt
  have hbig : 1021 < fileClusters payload := lt_fileClusters (by rw [bsize]; omega)
  omega

theorem streamOf_generated (hg : Generated payload n blocks) (hb : Agree bsize b (blocks 32)) :
    StreamOf payload fun i => b (32 + i) := by
  have hdir := hg.rootDir.of_agree hb
  have hlt := length_lt hg
  have hlen : le32 b 56 = payload.length % 2 ^ 32 := hdir.le32 rfl (by decide)
  have hhigh : le32 b 60 = payload.length / 2 ^ 32 := hdir.le32 rfl (by decide)
  have hflags : b.nat 33 = 1 := hdir.nat rfl (by decide)
  have hname : b.nat 35 = 8 := hdir.nat rfl (by decide)
  have hfirst : le32 b 52 = 3 := hdir.le32 rfl (by decide)
  constructor
  · exact hflags
  · exact hname
  · exact hfirst
  · exact hlen.trans (Nat.mod_eq_of_lt hlt)
  · exact hhigh.trans (Nat.div_eq_of_lt hlt)

theorem rootSector (count : Nat) : u32 (exfatClusterToSector (mounted loc count) 2 + 0) = 32 := rfl

/-- A round of the read-ahead inside the first sector of the root directory. -/
theorem collectRound_generated (hd : Serves d loc n blocks) (hg : Generated payload n blocks)
    (stack : Buf) {c : Collect} (hmore : c.collected < 3) (hclu : c.clu = 2) (hsec : c.sec = 0)
    (hoff : c.off + 32 ≤ bsize) :
    Prog.Yields (collectRound d stack (mounted loc count) 3 c) fun x =>
      ∃ b, Agree bsize b (blocks 32) ∧ x = .inl (c.entry b) := by
  have hsectors := hg.sectors_le
  have hclusters := hg.count
  rw [collectRound, if_pos hmore]
  have hadvance : Prog.Yields (c.advance d (mounted loc count)) (· = (true, c)) := by
    have hoff : c.off + 32 ≤ (mounted loc count).bytesPerSector := hoff
    rw [Collect.advance, if_pos hoff]
    exact Prog.Yields.pure rfl
  apply Prog.Yields.bind hadvance
  rintro _ rfl
  show Prog.Yields (collectEntry d stack (mounted loc count) true c) _
  rw [collectEntry, if_pos rfl, hclu, hsec, rootSector]
  apply Prog.Yields.bind (readSector_generated hd (k := 32) (by omega) stack)
  rintro ⟨ret, b⟩ ⟨hret, hb⟩
  apply Prog.Yields.pure
  refine ⟨b, hb, ?_⟩
  rw [if_neg fun hne => hne hret]

theorem collectSet_generated (hd : Serves d loc n blocks) (hg : Generated payload n blocks)
    (stack scratch : Buf) :
    Prog.Yields (collectSet d stack (mounted loc count) 3 2 0 0 scratch) fun x =>
      x.1 = true ∧ ∃ stream, x.2.stream = some stream ∧ x.2.name = nameUtf16 ∧
        StreamOf payload stream := by
  apply Prog.Yields.loop_next
  apply (collectRound_generated hd hg stack (show 1 < 3 by decide) rfl rfl
    (show 32 + 32 ≤ bsize by decide)).mono
  rintro _ ⟨b, hb, rfl⟩
  refine ⟨_, rfl, ?_⟩
  have htype : b.nat 32 = entStreamExt := (hg.rootDir.of_agree hb).nat rfl (by decide)
  have hfirst : Collect.entry ⟨1, 2, 0, 0 + 32, scratch, none, []⟩ b =
      ⟨2, 2, 0, 64, scratch, some fun i => b (32 + i), []⟩ := if_pos htype
  rw [hfirst]
  apply Prog.Yields.loop_next
  apply (collectRound_generated hd hg stack (show 2 < 3 by decide) rfl rfl
    (show 64 + 32 ≤ bsize by decide)).mono
  rintro _ ⟨b', hb', rfl⟩
  refine ⟨_, rfl, ?_⟩
  have htype' : b'.nat 64 = entFileName := (hg.rootDir.of_agree hb').nat rfl (by decide)
  have hroom : Collect.room ⟨2, 2, 0, 64, scratch, some fun i => b (32 + i), []⟩
      (fun i => b (32 + i)) = 8 := by
    rw [Collect.room, (streamOf_generated hg hb).nameLength]
    rfl
  have hsecond : Collect.entry ⟨2, 2, 0, 64, scratch, some fun i => b (32 + i), []⟩ b' =
      ⟨3, 2, 0, 96, scratch, some fun i => b (32 + i), nameUtf16⟩ := by
    rw [← nameUnits_generated hg hb', ← hroom]
    exact if_pos htype'
  rw [hsecond]
  apply Prog.Yields.loop_once
  rw [collectRound, if_neg (show ¬ 3 < 3 by decide)]
  exact Prog.Yields.pure ⟨_, rfl, rfl, _, rfl, rfl, streamOf_generated hg hb⟩

theorem exfatWalkDir_generated (hd : Serves d loc n blocks) (hg : Generated payload n blocks)
    (hcount : clusterCount n + 1 < 2 ^ 32) (stack scratch : Buf) (cookie : FindCookie) :
    Prog.Yields (exfatWalkDir d stack (mounted loc (clusterCount n))
      (exfatVisitFind (tail testElf)) 2 cookie scratch) fun e =>
        e.ret = .noError ∧ e.cookie = ⟨3, payload.length, 1, true⟩ := by
  have hsectors := hg.sectors_le
  have hclusters := hg.count
  apply Prog.Yields.loop_once
  have hcluster : (mounted loc (clusterCount n)).HasCluster 2 :=
    (mounted_hasCluster hcount).2 ⟨Nat.le_refl 2, Nat.le_trans (Nat.le_of_succ_le hclusters)
      (Nat.le_succ _)⟩
  rw [clusterRound, if_pos ⟨hcluster, Nat.zero_lt_of_ne_zero (by decide)⟩]
  have hsector : Prog.Yields (.loop (sectorRound d stack (mounted loc (clusterCount n))
      (exfatVisitFind (tail testElf)) 2) (0, cookie, scratch)) fun x =>
        ∃ e, x = .inr e ∧ e.ret = .noError ∧ e.cookie = ⟨3, payload.length, 1, true⟩ := by
    apply Prog.Yields.loop_once
    have hspc : 0 < (mounted loc (clusterCount n)).sectorsPerCluster := show 0 < 8 by decide
    rw [sectorRound]
    dsimp only
    rw [if_pos hspc, rootSector]
    apply Prog.Yields.bind (readSector_generated hd (k := 32) (by omega) scratch)
    rintro ⟨ret, b⟩ ⟨hret, hb⟩
    have hdir := hg.rootDir.of_agree hb
    have hret : ret = .noError := hret
    have htype : b.nat 0 = entFile := hdir.nat rfl (by decide)
    have hcount : b.nat (0 + 1) = 2 := hdir.nat rfl (by decide)
    have hentries : Prog.Yields (walkEntries d stack (mounted loc (clusterCount n))
        (exfatVisitFind (tail testElf)) 2 0 cookie ret b) fun x =>
          ∃ e, x = .inr e ∧ e.ret = .noError ∧ e.cookie = ⟨3, payload.length, 1, true⟩ := by
      rw [walkEntries, if_neg (not_not.2 hret)]
      apply Prog.Yields.loop_once
      have hset : ¬ (b.nat 0 ≠ entFile ∨ b.nat (0 + 1) < 2) := by
        rw [htype, hcount]
        decide
      have hroom : 0 + 32 ≤ (mounted loc (clusterCount n)).bytesPerSector :=
        show 0 + 32 ≤ bsize by decide
      have hend : b.nat 0 ≠ entEndOfDir := by
        rw [htype]
        decide
      rw [entryRound]
      dsimp only
      rw [if_pos hroom, if_neg hend, if_neg hset, hcount]
      apply Prog.Yields.bind (collectSet_generated hd hg stack b)
      rintro ⟨ok, c⟩ ⟨hok, stream, hstream, hname, hof⟩
      have hok : ok = true := hok
      have hname : c.name = nameUtf16 := hname
      have hstream : c.stream = some stream := hstream
      have hfound : exfatVisitFind (tail testElf) ⟨fun i => b (0 + i), stream, c.name⟩ cookie =
          (1, ⟨3, payload.length, 1, true⟩) := by
        rw [exfatVisitFind]
        dsimp only
        rw [hname, if_pos (by decide), hof.high, if_neg (not_not.2 rfl), hof.first, hof.length,
          hof.flags]
      apply Prog.Yields.pure
      rw [Collect.set, hok, if_pos rfl, hstream, Option.map_some, visitSet]
      dsimp only
      rw [hfound]
      exact ⟨_, rfl, _, rfl, rfl, rfl⟩
    apply Prog.Yields.bind hentries
    rintro _ ⟨e, rfl, he⟩
    exact Prog.Yields.pure ⟨_, rfl, e, rfl, he⟩
  apply Prog.Yields.bind hsector
  rintro _ ⟨e, rfl, he⟩
  exact Prog.Yields.pure ⟨e, rfl, he⟩

theorem dataSector (count : Nat) (hi : i < 1021) (hs : s < 8) :
    u32 (exfatClusterToSector (mounted loc count) (3 + i) + s) = 40 + (i * 8 + s) := by
  have hsector : exfatClusterToSector (mounted loc count) (3 + i) = u32 (32 + (3 + i - 2) * 8) :=
    if_neg (by omega)
  have hlt : 32 + (3 + i - 2) * 8 + s < 2 ^ 32 := by omega
  rw [hsector, u32, u32, Nat.mod_add_mod, Nat.mod_eq_of_lt hlt]
  omega

theorem data_generated (hd : Serves d loc n blocks) (hg : Generated payload n blocks)
    (hi : i * 8 * bsize < payload.length) {dst : Buf} {c : Copied} (scratch : Buf)
    (hread : Copied.Read payload dst (i * 8 * bsize) c) :
    Prog.Yields (.loop (dataRound d (mounted loc (clusterCount n)) (3 + i) payload.length)
      (0, c, scratch)) fun x => x.1 = .noError ∧
        Copied.Read payload dst (min ((i + 1) * 8 * bsize) payload.length) x.2.1 := by
  have hsectors := hg.sectors_le
  have hroom := hg.room
  have hsmall := hg.small
  have hcluster := lt_fileClusters hi
  apply Prog.Yields.loop
    (fun s => s.1 ≤ 8 ∧
      Copied.Read payload dst (min ((i * 8 + s.1) * bsize) payload.length) s.2.1)
    (fun s => 8 - s.1)
  · rintro ⟨s, c, scratch⟩ ⟨hs, hread⟩
    have hwritten := hread.written
    simp only at hs hread hwritten
    rw [dataRound]
    dsimp only
    split_ifs with hmore
    · have hspc : s < 8 := hmore.1
      have hlt : (i * 8 + s) * bsize < payload.length := by omega
      rw [dataSector _ (by omega) hspc]
      apply Prog.Yields.bind (readSector_generated hd (k := 40 + (i * 8 + s)) (by omega) scratch)
      rintro ⟨ret, b⟩ ⟨hret, hb⟩
      apply Prog.Yields.pure
      rw [if_neg fun hne => hne hret]
      rw [Nat.min_eq_left (Nat.le_of_lt hlt)] at hread
      exact ⟨⟨hspc, hread.append hlt (Agree.trans hb (hg.file _ hlt))⟩,
        Nat.sub_succ_lt_self _ _ hspc⟩
    · apply Prog.Yields.pure
      refine ⟨rfl, ?_⟩
      have hall : min ((i * 8 + s) * bsize) payload.length =
          min ((i + 1) * 8 * bsize) payload.length := by
        by_cases hend : s = 8
        · rw [hend, Nat.add_mul i 1 8]
        · have hlen : ¬ c.written < payload.length := fun h =>
            hmore ⟨Nat.lt_of_le_of_ne hs hend, h⟩
          have hmul : (i * 8 + s) * bsize ≤ (i + 1) * 8 * bsize :=
            Nat.mul_le_mul_right _ (by omega)
          omega
      rw [← hall]
      exact hread
  · refine ⟨Nat.zero_le _, ?_⟩
    show Copied.Read payload dst (min ((i * 8 + 0) * bsize) payload.length) c
    rw [Nat.add_zero, Nat.min_eq_left (Nat.le_of_lt hi)]
    exact hread

theorem exfatFatNext_generated (hd : Serves d loc n blocks) (hg : Generated payload n blocks)
    (hcount : clusterCount n + 1 < 2 ^ 32) (hi : i + 1 < fileClusters payload) (scratch : Buf) :
    Prog.Yields (exfatFatNext d (mounted loc (clusterCount n)) (3 + i) scratch) fun x =>
      x.1 = 3 + i + 1 := by
  have hsectors := hg.sectors_le
  have hroom := hg.room
  have hsmall := hg.small
  have hcluster : (mounted loc (clusterCount n)).HasCluster (3 + i) :=
    (mounted_hasCluster hcount).2 ⟨by omega, by omega⟩
  have hoff : u32 ((3 + i) * 4) = (3 + i) * 4 := Nat.mod_eq_of_lt (by omega)
  have hsector : u32 (24 + (3 + i) * 4 / 512) = 24 + (3 + i) * 4 / 512 :=
    Nat.mod_eq_of_lt (by omega)
  rw [exfatFatNext, if_pos hcluster, hoff]
  show Prog.Yields (readSector d _ (u32 (24 + (3 + i) * 4 / 512)) scratch >>= _) _
  rw [hsector]
  apply Prog.Yields.bind (readSector_generated hd (k := 24 + (3 + i) * 4 / 512) (by omega) scratch)
  rintro ⟨ret, b⟩ ⟨hret, hb⟩
  apply Prog.Yields.pure
  rw [if_neg fun hne => hne hret]
  exact hg.fat i hi b hb

theorem exfatReadContents_generated (hd : Serves d loc n blocks) (hg : Generated payload n blocks)
    (hcount : clusterCount n + 1 < 2 ^ 32) (dst scratch : Buf) :
    Prog.Yields (exfatReadContents d (mounted loc (clusterCount n)) 3 payload.length false dst
      scratch) fun x => x.1 = .noError ∧ Copied.Read payload dst payload.length x.2 := by
  have hroom := hg.room
  have hsmall := hg.small
  apply Prog.Yields.loop
    (fun s => ∃ i, s.cluster = 3 + i ∧ s.guard = i ∧ (i = 0 ∨ i * 8 * bsize < payload.length) ∧
      Copied.Read payload dst (i * 8 * bsize) s.copied)
    (fun s => fileClusters payload - s.guard)
  · rintro ⟨cluster, guard, c, scratch⟩ ⟨i, hcluster, hguard, hlt, hread⟩
    simp only at hcluster hguard hread
    subst hcluster hguard
    rw [contentsRound]
    dsimp only
    split_ifs with hmore
    · have hi : guard * 8 * bsize < payload.length := hread.written ▸ hmore.1
      have hclusters := lt_fileClusters hi
      apply Prog.Yields.bind (data_generated hd hg hi scratch hread)
      rintro ⟨ret, c, scratch⟩ ⟨hret, hread⟩
      have hret : ret = .noError := hret
      have hread : Copied.Read payload dst (min ((guard + 1) * 8 * bsize) payload.length) c := hread
      show Prog.Yields (contentsNext d _ payload.length false _ ret c scratch) _
      rw [contentsNext, if_neg (not_not.2 hret), hread.written]
      by_cases hend : payload.length ≤ min ((guard + 1) * 8 * bsize) payload.length
      · rw [if_pos hend]
        apply Prog.Yields.pure
        refine ⟨rfl, ?_⟩
        rw [Nat.min_eq_right (by omega)] at hread
        exact hread
      · have hnext : (guard + 1) * 8 * bsize < payload.length := by omega
        have hlink := lt_fileClusters hnext
        rw [Nat.min_eq_left (Nat.le_of_lt hnext)] at hread
        rw [if_neg hend, if_neg Bool.false_ne_true]
        apply Prog.Yields.bind (exfatFatNext_generated hd hg hcount hlink scratch)
        rintro ⟨next, scratch⟩ hval
        have hval : next = 3 + guard + 1 := hval
        apply Prog.Yields.pure
        have hne : next ≠ endOfChain := by
          rw [hval, endOfChain]
          omega
        dsimp only
        rw [if_neg hne]
        exact ⟨⟨guard + 1, hval, rfl, .inr hnext, hread⟩, Nat.sub_succ_lt_self _ _ hclusters⟩
    · apply Prog.Yields.pure
      refine ⟨rfl, ?_⟩
      have hnot : ¬ guard * 8 * bsize < payload.length := by
        intro hi
        have hclusters := lt_fileClusters hi
        have hcluster : (mounted loc (clusterCount n)).HasCluster (3 + guard) :=
          (mounted_hasCluster hcount).2 ⟨by omega, by omega⟩
        exact hmore ⟨hread.written ▸ hi, hcluster, by omega⟩
      have hall : guard * 8 * bsize = payload.length := by
        obtain rfl | hi := hlt
        · rw [Nat.zero_mul] at hnot ⊢
          omega
        · exact absurd hi hnot
      rw [← hall]
      exact hread
  · refine ⟨0, rfl, rfl, .inl rfl, ?_⟩
    rw [Nat.zero_mul]
    exact .zero payload dst

theorem fsExfat_loads (h : buildImage n payload = some blocks)
    (hcount : clusterCount n + 1 < 2 ^ 32) (hd : Serves d loc n blocks) (stack : Buf) {q : Call}
    (hwhat : q.what = .load) (hpath : q.path = testElf) (hloc : q.loc = loc)
    (hsize : bsize ≤ q.size) : Prog.Yields (fsExfat d stack q) (Loads payload q) := by
  have hg := buildImage_generated h
  have hsize : ¬ q.size < 512 := Nat.not_lt.2 hsize
  rw [fsExfat, if_neg hsize, hloc]
  apply Prog.Yields.bind (exfatOpenVolume_generated hd hg hcount q.buf)
  rintro _ rfl
  rw [afterOpen, hwhat, act, hpath]
  rw [if_neg (by decide), if_neg (by decide)]
  have hstart : testElf.dropWhile isSep = testElf := by decide
  rw [hstart]
  apply Prog.Yields.bind (exfatWalkDir_generated hd hg hcount stack stack ⟨0, 0, 0, false⟩)
  rintro ⟨ret, cookie, scratch⟩ ⟨hret, hcookie⟩
  have hret : ret = .noError := hret
  have hcookie : cookie = ⟨3, payload.length, 1, true⟩ := hcookie
  subst hret hcookie
  have hflags : Nat.testBit 1 1 = false := by decide
  rw [load, if_neg (not_not.2 rfl), if_pos rfl]
  dsimp only
  rw [hflags]
  apply Prog.Yields.bind (exfatReadContents_generated hd hg hcount q.retbuf scratch)
  rintro ⟨ret, c⟩ ⟨hret, hc⟩
  exact Prog.Yields.pure (loaded_loads q hret hc)

end Load

end Exfat

end Pegasos2.Fs
