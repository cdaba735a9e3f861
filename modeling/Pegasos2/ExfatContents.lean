import Pegasos2.ExfatAddresses
import Pegasos2.VolumeImage

namespace Pegasos2.Fs
open Program
open PartitionPkg (Agree)
set_option autoImplicit true

namespace Exfat

def Volume.clusterSize (v : Volume) : Nat := v.sectorsPerCluster * 512

/-- The entry of a cluster in the FAT of the image. -/
def Volume.fatEntry (v : Volume) (image : Nat → UInt8) (cluster : Nat) : Nat :=
  le32 image (v.fatByte cluster)

/-- Cluster `k` of a file. -/
def Volume.fileCluster (v : Volume) (image : Nat → UInt8) (noFat : Bool) (first : Nat) : Nat → Nat
  | 0 => first
  | k + 1 =>
    if noFat then v.fileCluster image noFat first k + 1
    else v.fatEntry image (v.fileCluster image noFat first k)

/-- The bytes of the clusters of a file in their order. -/
def Volume.fileByte (v : Volume) (image : Nat → UInt8) (noFat : Bool) (first : Nat) : Buf :=
  fun j => image (v.sectorByte (v.fileCluster image noFat first (j / v.clusterSize)) 0 +
    j % v.clusterSize)

/-- A file of `dataLen` bytes, with all of its clusters on the volume. -/
structure Volume.HasFile (v : Volume) (image : Nat → UInt8) (noFat : Bool) (first dataLen : Nat) :
    Prop where
  clusters : dataLen ≤ 100000 * v.clusterSize
  inside : ∀ k, k * v.clusterSize < dataLen →
    2 ≤ v.fileCluster image noFat first k ∧
      v.fileCluster image noFat first k ≤ v.clusterCount + 1

theorem Volume.sectorByte_eq (v : Volume) (cluster s : Nat) :
    v.sectorByte cluster s = v.sectorByte cluster 0 + s * 512 := by
  rw [sectorByte, sectorByte, Nat.add_zero, Nat.add_mul _ s, Nat.add_assoc]

section Contents

variable {v : Volume} (hv : v.Accepted) (hreach : v.InReach) {d : ImageDisk} (hd : d.Reads)
  {noFat : Bool} {first dataLen : Nat}

theorem fileByte_inside (v : Volume) (image : Nat → UInt8) (k : Nat) (hs : s < v.sectorsPerCluster)
    (hj : j < 512) :
    v.fileByte image noFat first (k * v.clusterSize + s * 512 + j) =
      image (v.sectorByte (v.fileCluster image noFat first k) s + j) := by
  have hin : s * 512 + j < v.clusterSize := by
    rw [Volume.clusterSize]
    omega
  have hdiv : (k * v.clusterSize + s * 512 + j) / v.clusterSize = k := by
    rw [Nat.add_assoc, Nat.add_comm, Nat.add_mul_div_right _ _ (Nat.zero_lt_of_lt hin),
      Nat.div_eq_of_lt hin, Nat.zero_add]
  have hmod : (k * v.clusterSize + s * 512 + j) % v.clusterSize = s * 512 + j := by
    rw [Nat.add_assoc, Nat.add_comm, Nat.add_mul_mod_self_right, Nat.mod_eq_of_lt hin]
  rw [Volume.fileByte, hdiv, hmod, v.sectorByte_eq _ s, Nat.add_assoc]

include hv hreach hd

theorem dataLoop_fills (hfile : v.HasFile d.image noFat first dataLen)
    (hlt : k * v.clusterSize < dataLen) {out : Buf}
    (hc : Copied.Filled (v.fileByte d.image noFat first) out (k * v.clusterSize) c)
    (scratch : Buf) :
    Prog.Yields (.loop (dataRound d.toDisk v (v.fileCluster d.image noFat first k) dataLen)
      (0, c, scratch)) fun y => y.1 = .noError ∧
        Copied.Filled (v.fileByte d.image noFat first) out (min ((k + 1) * v.clusterSize) dataLen)
          y.2.1 := by
  obtain ⟨hlo, hhi⟩ := hfile.inside k hlt
  have hcluster : v.clusterSize = v.sectorsPerCluster * 512 := rfl
  have hend : (k + 1) * v.clusterSize = k * v.clusterSize + v.clusterSize := Nat.succ_mul _ _
  generalize hstart : k * v.clusterSize = start at *
  apply Prog.Yields.loop
    (fun t => t.1 ≤ v.sectorsPerCluster ∧ Copied.Filled (v.fileByte d.image noFat first) out
      (min (start + t.1 * 512) dataLen) t.2.1)
    (fun t => v.sectorsPerCluster - t.1)
  · rintro ⟨s, c, scratch⟩ ⟨hs, hfilled⟩
    have hwritten := hfilled.written
    dsimp only at hs hfilled hwritten
    rw [dataRound]
    split_ifs with hmore
    · obtain ⟨hsec, hleft⟩ := hmore
      dsimp only at hsec hleft
      have hplace : start + s * 512 < dataLen := by omega
      have hread := readSector_reads hv hd (v.fileCluster d.image noFat first k) s scratch
      rw [(hreach.reaches hv hhi).heap hlo hsec] at hread
      apply Prog.Yields.bind hread
      rintro ⟨ret, b⟩ ⟨hret, hb⟩
      apply Prog.Yields.pure
      dsimp only
      rw [if_neg fun hne => hne hret]
      refine ⟨⟨hsec, ?_⟩, Nat.sub_succ_lt_self _ _ hsec⟩
      rw [Nat.min_eq_left (Nat.le_of_lt hplace)] at hfilled
      have hnext : start + (s + 1) * 512 = start + s * 512 + 512 := by omega
      rw [hv.bytes, hnext]
      apply hfilled.append (Nat.le_of_lt hplace)
      intro j hj _
      rw [← hstart, fileByte_inside v d.image k hsec hj]
      exact hb j hj
    · apply Prog.Yields.pure
      refine ⟨rfl, ?_⟩
      dsimp only at hmore ⊢
      have hall : min (start + s * 512) dataLen = min (start + v.clusterSize) dataLen := by
        rw [hcluster]
        omega
      rw [hend, ← hall]
      exact hfilled
  · refine ⟨Nat.zero_le _, ?_⟩
    dsimp only
    rw [Nat.zero_mul, Nat.add_zero, Nat.min_eq_left (Nat.le_of_lt hlt)]
    exact hc

/-- What the loop over the clusters has read before a round. -/
def Contents.Filled (v : Volume) (image : Nat → UInt8) (noFat : Bool) (first dataLen : Nat)
    (out : Buf) (s : Contents) : Prop :=
  s.guard * v.clusterSize ≤ dataLen ∧ s.cluster = v.fileCluster image noFat first s.guard ∧
    Copied.Filled (v.fileByte image noFat first) out (s.guard * v.clusterSize) s.copied

theorem contentsNext_fills (hfile : v.HasFile d.image noFat first dataLen) {out : Buf}
    {s : Contents} (hs : s.cluster = v.fileCluster d.image noFat first s.guard)
    (hlt : s.guard * v.clusterSize < dataLen) (hlimit : s.guard < 100000) {ret : Retcode}
    (hret : ret = .noError)
    (hc : Copied.Filled (v.fileByte d.image noFat first) out
      (min ((s.guard + 1) * v.clusterSize) dataLen) c) (scratch : Buf) :
    Prog.Yields (contentsNext d.toDisk v dataLen noFat s ret c scratch)
      (Prog.Yields.Next (Contents.Filled v d.image noFat first dataLen out)
        (fun s => 100000 - s.guard) (100000 - s.guard)
        (· = (.noError, ⟨dataLen, out.copy 0 (v.fileByte d.image noFat first) 0 dataLen⟩))) := by
  have hwritten := hc.written
  rw [contentsNext, if_neg fun hne => hne hret]
  by_cases hdone : dataLen ≤ c.written
  · rw [if_pos hdone]
    apply Prog.Yields.pure
    have hall : min ((s.guard + 1) * v.clusterSize) dataLen = dataLen := by omega
    rw [hall] at hc
    exact congrArg (Prod.mk Retcode.noError) hc
  · rw [if_neg hdone]
    have hmore : (s.guard + 1) * v.clusterSize < dataLen := by omega
    obtain ⟨-, hhi⟩ := hfile.inside s.guard hlt
    obtain ⟨hlo', hhi'⟩ := hfile.inside (s.guard + 1) hmore
    have hnext : (s.guard + 1) * v.clusterSize ≤ dataLen := Nat.le_of_lt hmore
    rw [Nat.min_eq_left hnext] at hc
    have hcount := hreach.entry
    cases noFat with
    | true =>
      rw [if_pos rfl]
      apply Prog.Yields.pure
      have hsucc : v.fileCluster d.image true first (s.guard + 1) = s.cluster + 1 := by
        rw [hs]
        rfl
      have hwrap : u32 (s.cluster + 1) = s.cluster + 1 := by
        apply Nat.mod_eq_of_lt
        omega
      rw [hwrap]
      exact ⟨⟨hnext, hsucc.symm, hc⟩, Nat.sub_succ_lt_self _ _ hlimit⟩
    | false =>
      rw [if_neg Bool.false_ne_true]
      have hin := hfile.inside s.guard hlt
      rw [← hs] at hin
      have hread := exfatFatNext_reads hv hd scratch hin.1 hin.2
      rw [(hreach.reaches hv hin.2).fat] at hread
      apply Prog.Yields.bind hread
      rintro ⟨cluster, b⟩ ⟨hcluster, -⟩
      apply Prog.Yields.pure
      have hsucc : v.fileCluster d.image false first (s.guard + 1) = cluster := by
        have hentry : cluster = le32 d.image (v.fatByte s.cluster) := hcluster
        rw [hentry, hs]
        rfl
      rw [hsucc] at hhi'
      have hend : cluster ≠ endOfChain := by
        rw [endOfChain]
        omega
      rw [if_neg hend]
      exact ⟨⟨hnext, hsucc.symm, hc⟩, Nat.sub_succ_lt_self _ _ hlimit⟩

theorem exfatReadContents_fills (hfile : v.HasFile d.image noFat first dataLen)
    (out scratch : Buf) :
    Prog.Yields (exfatReadContents d.toDisk v first dataLen noFat out scratch)
      (· = (.noError, ⟨dataLen, out.copy 0 (v.fileByte d.image noFat first) 0 dataLen⟩)) := by
  apply Prog.Yields.loop (Contents.Filled v d.image noFat first dataLen out)
    (fun s => 100000 - s.guard)
  · rintro s ⟨hle, hcluster, hfilled⟩
    have hwritten := hfilled.written
    rw [contentsRound]
    by_cases hlt : s.guard * v.clusterSize < dataLen
    · have hpos : 0 < v.clusterSize := Nat.mul_pos hv.sectors (by decide)
      have hlimit : s.guard < 100000 := by
        by_contra hge
        have hmul : 100000 * v.clusterSize ≤ s.guard * v.clusterSize :=
          Nat.mul_le_mul_right _ (Nat.not_lt.1 hge)
        exact absurd (Nat.le_trans hfile.clusters hmul) (Nat.not_le.2 hlt)
      have hhas := (hv.hasCluster _).2 (hfile.inside s.guard hlt)
      rw [← hcluster] at hhas
      rw [if_pos ⟨by omega, hhas, hlimit⟩, hcluster]
      apply Prog.Yields.bind (dataLoop_fills hv hreach hd hfile hlt hfilled s.scratch)
      rintro ⟨ret, c, b⟩ ⟨hret, hc⟩
      exact contentsNext_fills hv hreach hd hfile hcluster hlt hlimit hret hc b
    · have hall : s.guard * v.clusterSize = dataLen := by omega
      rw [if_neg fun hmore => absurd hmore.1 (by omega)]
      apply Prog.Yields.pure
      rw [hall] at hfilled
      exact congrArg (Prod.mk Retcode.noError) hfilled
  · have hzero : 0 * v.clusterSize = 0 := Nat.zero_mul _
    refine ⟨?_, rfl, ?_⟩
    · rw [hzero]
      exact Nat.zero_le _
    · rw [hzero]
      exact .zero _ out

omit hv hreach hd

/-- The FAT links the clusters of the file in the order of their numbers. -/
def Volume.Contiguous (v : Volume) (image : Nat → UInt8) (first dataLen : Nat) : Prop :=
  ∀ k, (k + 1) * v.clusterSize < dataLen → v.fatEntry image (first + k) = first + k + 1

theorem Volume.Contiguous.fileCluster {v : Volume} {image : Nat → UInt8}
    (h : v.Contiguous image first dataLen) (noFat : Bool) (hk : k * v.clusterSize < dataLen) :
    v.fileCluster image noFat first k = first + k := by
  induction k with
  | zero => rfl
  | succ k ih =>
    have hle : k * v.clusterSize ≤ (k + 1) * v.clusterSize :=
      Nat.mul_le_mul_right _ (Nat.le_succ k)
    have hprev := ih (Nat.lt_of_le_of_lt hle hk)
    rw [Volume.fileCluster, hprev]
    cases noFat with
    | true => rfl
    | false => exact h k hk

theorem Volume.Contiguous.fileByte {v : Volume} {image : Nat → UInt8}
    (h : v.Contiguous image first dataLen) (noFat noFat' : Bool) (hj : j < dataLen) :
    v.fileByte image noFat first j = v.fileByte image noFat' first j := by
  have hk : j / v.clusterSize * v.clusterSize < dataLen :=
    Nat.lt_of_le_of_lt (Nat.div_mul_le_self _ _) hj
  rw [Volume.fileByte, Volume.fileByte, h.fileCluster noFat hk, h.fileCluster noFat' hk]

include hv hreach hd

theorem exfatReadContents_contiguous (hfile : v.HasFile d.image noFat first dataLen)
    (hcont : v.Contiguous d.image first dataLen) (noFat' : Bool) (out scratch : Buf) :
    Prog.Yields (exfatReadContents d.toDisk v first dataLen noFat' out scratch)
      (· = (.noError, ⟨dataLen, out.copy 0 (v.fileByte d.image noFat first) 0 dataLen⟩)) := by
  have hfile' : v.HasFile d.image noFat' first dataLen := by
    refine ⟨hfile.clusters, fun k hk => ?_⟩
    rw [hcont.fileCluster noFat' hk, ← hcont.fileCluster noFat hk]
    exact hfile.inside k hk
  have hsame : out.copy 0 (v.fileByte d.image noFat' first) 0 dataLen =
      out.copy 0 (v.fileByte d.image noFat first) 0 dataLen := by
    funext i
    rw [Buf.copy, Buf.copy]
    split_ifs with hi
    · exact hcont.fileByte noFat' noFat (by omega)
    · rfl
  rw [← hsame]
  exact exfatReadContents_fills hv hreach hd hfile' out scratch

end Contents

/-- The contents of a file are the bytes of its clusters, along the FAT or in the order of their
numbers, which is the same for a file whose FAT chain is contiguous. -/
theorem exfatReadContents_exact (v : Volume) (d : ImageDisk) (noFat : Bool) (first dataLen : Nat)
    (out scratch : Buf) (hv : v.Accepted) (hreach : v.InReach) (hd : d.Reads)
    (hfile : v.HasFile d.image noFat first dataLen) :
    Prog.Yields (exfatReadContents d.toDisk v first dataLen noFat out scratch)
      (· = (.noError, ⟨dataLen, out.copy 0 (v.fileByte d.image noFat first) 0 dataLen⟩)) ∧
    (v.Contiguous d.image first dataLen → ∀ noFat',
      Prog.Yields (exfatReadContents d.toDisk v first dataLen noFat' out scratch)
        (· = (.noError, ⟨dataLen, out.copy 0 (v.fileByte d.image noFat first) 0 dataLen⟩))) := by
  constructor
  · exact exfatReadContents_fills hv hreach hd hfile out scratch
  · intro hcont noFat'
    exact exfatReadContents_contiguous hv hreach hd hfile hcont noFat' out scratch

/-- A volume with clusters of one sector. -/
def smallVolume : Volume := ⟨0, 512, 1, 512, 24, 32, 100, 2⟩

theorem smallVolume_accepted : smallVolume.Accepted :=
  ⟨rfl, by decide, by decide, by decide⟩

theorem smallVolume_inReach : smallVolume.InReach :=
  ⟨by decide, by decide, by decide, by decide, by decide⟩

/-- A volume whose FAT links cluster 2 to cluster 3. -/
def chained : ImageDisk :=
  Disk.ofImage (written [le 12296 4 3, be 12300 4 0xFFFFFFFF, be 16384 4 0x7F454C46,
    be 16896 4 0x01020304])

theorem exfatReadContents_exact_small :
    Prog.Yields (exfatReadContents chained.toDisk smallVolume 2 600 false (fun _ => 0) fun _ => 0)
      (· = (.noError, ⟨600, Buf.copy (fun _ => 0) 0
        (smallVolume.fileByte chained.image false 2) 0 600⟩)) ∧
    Prog.Yields (exfatReadContents chained.toDisk smallVolume 2 600 true (fun _ => 0) fun _ => 0)
      (· = (.noError, ⟨600, Buf.copy (fun _ => 0) 0
        (smallVolume.fileByte chained.image false 2) 0 600⟩)) := by
  have hsize : smallVolume.clusterSize = 512 := rfl
  have hfile : smallVolume.HasFile chained.image false 2 600 := by
    refine ⟨by decide, fun k hk => ?_⟩
    rw [hsize] at hk
    obtain rfl | rfl : k = 0 ∨ k = 1 := by omega
    · exact ⟨by decide, by decide⟩
    · exact ⟨by decide +kernel, by decide +kernel⟩
  have hexact := exfatReadContents_exact smallVolume chained false 2 600 (fun _ => 0) (fun _ => 0)
    smallVolume_accepted smallVolume_inReach (ofImage_reads _) hfile
  refine ⟨hexact.1, hexact.2 (fun k hk => ?_) true⟩
  rw [hsize] at hk
  obtain rfl : k = 0 := by omega
  decide +kernel

end Exfat

end Pegasos2.Fs
