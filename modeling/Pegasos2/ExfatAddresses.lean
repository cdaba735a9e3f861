import Pegasos2.FsExfat
import Pegasos2.PartitionPkg
import Pegasos2.ByteFields

namespace Pegasos2.Fs
open Program
open PartitionPkg (Agree)
set_option autoImplicit true

/-- No read of the disk fails. -/
def ImageDisk.Reads (d : ImageDisk) : Prop :=
  ∀ time loc size, ∃ data, d.read time loc size = .ok data

theorem ImageDisk.Reads.filesysReadBytes {d : ImageDisk} (h : d.Reads) (loc size : Nat)
    (buf : Buf) : Prog.Yields (filesysReadBytes d.toDisk loc size buf) fun x =>
      x.1 = .noError ∧ Agree size x.2 fun i => d.image (loc + i) := by
  apply Prog.Yields.access
  intro w
  obtain ⟨data, hdata⟩ := h w.reads loc size
  simp only [hdata]
  refine ⟨trivial, fun i hi => ?_⟩
  rw [← Nat.zero_add i, Buf.copy_inside buf data hi]
  exact d.faithful _ _ _ _ hdata (0 + i) (by omega)

theorem ofImage_reads (image : Nat → UInt8) : (Disk.ofImage image).Reads :=
  fun _ _ _ => ⟨_, rfl⟩

namespace Exfat

/-- The place of the FAT entry of a cluster. -/
def Volume.fatByte (v : Volume) (cluster : Nat) : Nat :=
  v.partLoc + v.fatOffset * 512 + 4 * cluster

/-- The place of a sector of a cluster. -/
def Volume.sectorByte (v : Volume) (cluster s : Nat) : Nat :=
  v.partLoc + (v.clusterHeapOffset + (cluster - 2) * v.sectorsPerCluster + s) * 512

/-- `exfat_fat_next` returns what stands at the place of the FAT entry. -/
def FatExact (v : Volume) : Prop :=
  ∀ d : ImageDisk, d.Reads → ∀ cluster scratch, 2 ≤ cluster → cluster ≤ v.clusterCount + 1 →
    Prog.Yields (exfatFatNext d.toDisk v cluster scratch) fun x =>
      x.1 = le32 d.image (v.fatByte cluster)

/-- The sectors of the clusters are read at their places. -/
def HeapExact (v : Volume) : Prop :=
  ∀ d : ImageDisk, d.Reads → ∀ cluster s buf, 2 ≤ cluster → cluster ≤ v.clusterCount + 1 →
    s < v.sectorsPerCluster →
    Prog.Yields (readSector d.toDisk v (u32 (exfatClusterToSector v cluster + s)) buf) fun x =>
      x.1 = .noError ∧ Agree 512 x.2 fun i => d.image (v.sectorByte cluster s + i)

/-- The last FAT entry and the last sector of the last cluster are within reach of 32-bit sector
numbers and 64-bit places. -/
structure Volume.InReach (v : Volume) : Prop where
  entry : 4 * (v.clusterCount + 1) < 2 ^ 32
  fatSector : v.fatOffset + 4 * (v.clusterCount + 1) / 512 < 2 ^ 32
  fatPlace : v.partLoc + (v.fatOffset + 4 * (v.clusterCount + 1) / 512) * 512 < 2 ^ 64
  heapSector : v.clusterHeapOffset + v.clusterCount * v.sectorsPerCluster ≤ 2 ^ 32
  heapPlace : v.partLoc + (v.clusterHeapOffset + v.clusterCount * v.sectorsPerCluster - 1) * 512 <
    2 ^ 64

/-- The FAT entry and the last sector of a cluster are within reach. -/
structure Volume.Reaches (v : Volume) (cluster : Nat) : Prop where
  entry : 4 * cluster < 2 ^ 32
  fatSector : v.fatOffset + 4 * cluster / 512 < 2 ^ 32
  fatPlace : v.partLoc + (v.fatOffset + 4 * cluster / 512) * 512 < 2 ^ 64
  heapSector : v.clusterHeapOffset + (cluster - 2) * v.sectorsPerCluster + v.sectorsPerCluster ≤
    2 ^ 32
  heapPlace : v.sectorByte cluster (v.sectorsPerCluster - 1) < 2 ^ 64

/-- What `exfat_open_volume` makes sure of. -/
structure Volume.Accepted (v : Volume) : Prop where
  bytes : v.bytesPerSector = 512
  sectors : 0 < v.sectorsPerCluster
  clusters : 0 < v.clusterCount
  count : v.clusterCount + 1 < 2 ^ 32

theorem BootOk.accepted (h : BootOk partLoc buf) : (volume partLoc buf).Accepted := by
  obtain ⟨-, -, hbytes, -, ⟨hroot, hle⟩, -, -⟩ := h
  have hlt : (volume partLoc buf).clusterCount < 2 ^ 32 := le32_lt buf 92
  have hcount : (volume partLoc buf).clusterCount + 1 < 2 ^ 32 := by
    by_contra hge
    have hmax : (volume partLoc buf).clusterCount + 1 = 2 ^ 32 := by omega
    rw [hmax, u32, Nat.mod_self] at hle
    omega
  rw [u32, Nat.mod_eq_of_lt hcount] at hle
  have hbytes' : (volume partLoc buf).bytesPerSector = 512 :=
    (congrArg (2 ^ ·) hbytes).trans (by decide)
  exact ⟨hbytes', Nat.pow_pos (by decide), by omega, hcount⟩

theorem Volume.Accepted.hasCluster {v : Volume} (h : v.Accepted) (cluster : Nat) :
    v.HasCluster cluster ↔ 2 ≤ cluster ∧ cluster ≤ v.clusterCount + 1 := by
  rw [HasCluster, u32, Nat.mod_eq_of_lt h.count]

/-- The place at which the FAT entry is read. -/
def fatRead (v : Volume) (cluster : Nat) : Nat :=
  u64 (v.partLoc + u32 (v.fatOffset + u32 (cluster * 4) / 512) * 512) + u32 (cluster * 4) % 512

/-- The place of the sector of a FAT entry. -/
def fatSectorRead (v : Volume) (cluster : Nat) : Nat :=
  u64 (v.partLoc + u32 (v.fatOffset + u32 (cluster * 4) / 512) * 512)

/-- The place at which a sector of a cluster is read. -/
def sectorRead (v : Volume) (cluster s : Nat) : Nat :=
  u64 (v.partLoc + u32 (exfatClusterToSector v cluster + s) * 512)

theorem exfatFatNext_reads {v : Volume} (hv : v.Accepted) {d : ImageDisk} (hd : d.Reads)
    (scratch : Buf) (hlo : 2 ≤ cluster) (hhi : cluster ≤ v.clusterCount + 1) :
    Prog.Yields (exfatFatNext d.toDisk v cluster scratch) fun x =>
      x.1 = le32 d.image (fatRead v cluster) ∧
        Agree 512 x.2 fun i => d.image (fatSectorRead v cluster + i) := by
  have hhas : v.HasCluster cluster := (hv.hasCluster cluster).2 ⟨hlo, hhi⟩
  rw [exfatFatNext, if_pos hhas, readSector, hv.bytes]
  apply Prog.Yields.bind (hd.filesysReadBytes _ _ scratch)
  rintro ⟨ret, b⟩ ⟨hret, hb⟩
  apply Prog.Yields.pure
  dsimp only
  rw [if_neg fun hne => hne hret]
  refine ⟨?_, hb⟩
  have hfour : (u32 (cluster * 4)) % 4 = 0 := by
    rw [u32]
    omega
  have hoff : u32 (cluster * 4) % 512 + 4 ≤ 512 := by omega
  have hbyte (j : Nat) (hj : j < 4) : b.nat (u32 (cluster * 4) % 512 + j) =
      Buf.nat d.image (fatRead v cluster + j) := by
    have hin : u32 (cluster * 4) % 512 + j < 512 := by omega
    have hat : b (u32 (cluster * 4) % 512 + j) = d.image _ := hb _ hin
    rw [Buf.nat, hat, Buf.nat, fatRead, Nat.add_assoc]
  have h0 := hbyte 0 (by decide)
  rw [Nat.add_zero, Nat.add_zero] at h0
  rw [le32, le32, h0, hbyte 1 (by decide), hbyte 2 (by decide), hbyte 3 (by decide)]

theorem readSector_reads {v : Volume} (hv : v.Accepted) {d : ImageDisk} (hd : d.Reads)
    (cluster s : Nat) (buf : Buf) :
    Prog.Yields (readSector d.toDisk v (u32 (exfatClusterToSector v cluster + s)) buf) fun x =>
      x.1 = .noError ∧ Agree 512 x.2 fun i => d.image (sectorRead v cluster s + i) := by
  rw [readSector, hv.bytes]
  exact hd.filesysReadBytes _ _ buf

theorem fatRead_eq_iff (v : Volume) (cluster : Nat) :
    fatRead v cluster = v.fatByte cluster ↔ 4 * cluster < 2 ^ 32 ∧
      v.fatOffset + 4 * cluster / 512 < 2 ^ 32 ∧
      v.partLoc + (v.fatOffset + 4 * cluster / 512) * 512 < 2 ^ 64 := by
  constructor
  · intro h
    -- Every reduction makes the place smaller, so none takes place.
    rw [fatRead, Volume.fatByte] at h
    have hentry : u32 (cluster * 4) ≤ cluster * 4 := Nat.mod_le _ _
    have hentry' : u32 (cluster * 4) < 2 ^ 32 := Nat.mod_lt _ (Nat.pow_pos (by decide))
    generalize u32 (cluster * 4) = entry at *
    have hsector : u32 (v.fatOffset + entry / 512) ≤ v.fatOffset + entry / 512 := Nat.mod_le _ _
    have hsector' : u32 (v.fatOffset + entry / 512) < 2 ^ 32 :=
      Nat.mod_lt _ (Nat.pow_pos (by decide))
    generalize u32 (v.fatOffset + entry / 512) = sector at *
    have hplace : u64 (v.partLoc + sector * 512) ≤ v.partLoc + sector * 512 := Nat.mod_le _ _
    have hplace' : u64 (v.partLoc + sector * 512) < 2 ^ 64 := Nat.mod_lt _ (Nat.pow_pos (by decide))
    generalize u64 (v.partLoc + sector * 512) = place at *
    have heq : entry = 4 * cluster := by omega
    subst heq
    have hsec : sector = v.fatOffset + 4 * cluster / 512 := by omega
    subst hsec
    refine ⟨hentry', hsector', ?_⟩
    omega
  · rintro ⟨hentry, hsector, hplace⟩
    have hfour : u32 (cluster * 4) = 4 * cluster := by
      rw [u32, Nat.mul_comm, Nat.mod_eq_of_lt hentry]
    have hsec : u32 (v.fatOffset + 4 * cluster / 512) = v.fatOffset + 4 * cluster / 512 :=
      Nat.mod_eq_of_lt hsector
    rw [fatRead, Volume.fatByte, hfour, hsec, u64, Nat.mod_eq_of_lt hplace]
    omega

theorem sectorRead_eq_iff (v : Volume) (hlo : 2 ≤ cluster) (s : Nat) :
    sectorRead v cluster s = v.sectorByte cluster s ↔
      v.clusterHeapOffset + (cluster - 2) * v.sectorsPerCluster + s < 2 ^ 32 ∧
      v.sectorByte cluster s < 2 ^ 64 := by
  rw [sectorRead, Volume.sectorByte, exfatClusterToSector, if_neg (Nat.not_lt.2 hlo)]
  generalize v.clusterHeapOffset + (cluster - 2) * v.sectorsPerCluster = first
  constructor
  · intro h
    have hfirst : u32 first ≤ first := Nat.mod_le _ _
    generalize u32 first = first' at *
    have hsector : u32 (first' + s) ≤ first' + s := Nat.mod_le _ _
    have hsector' : u32 (first' + s) < 2 ^ 32 := Nat.mod_lt _ (Nat.pow_pos (by decide))
    generalize u32 (first' + s) = sector at *
    have hplace : u64 (v.partLoc + sector * 512) ≤ v.partLoc + sector * 512 := Nat.mod_le _ _
    have hplace' : u64 (v.partLoc + sector * 512) < 2 ^ 64 := Nat.mod_lt _ (Nat.pow_pos (by decide))
    generalize u64 (v.partLoc + sector * 512) = place at *
    have heq : sector = first + s := by omega
    subst heq
    refine ⟨hsector', ?_⟩
    omega
  · rintro ⟨hsector, hplace⟩
    have hfirst : u32 first = first := Nat.mod_eq_of_lt (by omega)
    have hsec : u32 (first + s) = first + s := Nat.mod_eq_of_lt hsector
    rw [hfirst, hsec, u64, Nat.mod_eq_of_lt hplace]

/-- An image that tells one place from all others. -/
def mark (place i : Nat) : UInt8 := if i = place then 1 else 0

theorem le32_mark (place i : Nat) : le32 (mark place) i % 256 = if i = place then 1 else 0 := by
  have hbyte : Buf.nat (mark place) i = if i = place then 1 else 0 := by
    rw [Buf.nat, mark]
    split_ifs <;> rfl
  rw [← hbyte, le32]
  have hlt := Buf.nat_lt (mark place) i
  omega

theorem yields_both {p : Io α} {P Q : α → Prop} (h : Prog.Yields p P) (h' : Prog.Yields p Q) :
    ∃ a, P a ∧ Q a := by
  obtain ⟨a, s, ha, hP⟩ := h Rdb.boot
  obtain ⟨b, s', hb, hQ⟩ := h' Rdb.boot
  obtain ⟨rfl, -⟩ := ha.unique hb
  exact ⟨a, hP, hQ⟩

theorem FatExact.place {v : Volume} (h : FatExact v) (hv : v.Accepted) (hlo : 2 ≤ cluster)
    (hhi : cluster ≤ v.clusterCount + 1) : fatRead v cluster = v.fatByte cluster := by
  have hreads := ofImage_reads (mark (v.fatByte cluster))
  obtain ⟨x, ⟨hx, -⟩, hx'⟩ := yields_both (exfatFatNext_reads hv hreads (fun _ => 0) hlo hhi)
    (h _ hreads cluster (fun _ => 0) hlo hhi)
  have hsame := congrArg (· % 256) (hx.symm.trans hx')
  have hmark : le32 (mark (v.fatByte cluster)) (fatRead v cluster) % 256 =
      le32 (mark (v.fatByte cluster)) (v.fatByte cluster) % 256 := hsame
  rw [le32_mark, le32_mark, if_pos rfl] at hmark
  by_contra hne
  rw [if_neg hne] at hmark
  exact absurd hmark (by decide)

theorem HeapExact.place {v : Volume} (h : HeapExact v) (hv : v.Accepted) (hlo : 2 ≤ cluster)
    (hhi : cluster ≤ v.clusterCount + 1) (hs : s < v.sectorsPerCluster) :
    sectorRead v cluster s = v.sectorByte cluster s := by
  have hreads := ofImage_reads (mark (v.sectorByte cluster s))
  obtain ⟨x, ⟨-, hx⟩, -, hx'⟩ := yields_both (readSector_reads hv hreads cluster s fun _ => 0)
    (h _ hreads cluster s (fun _ => 0) hlo hhi hs)
  have hmark : mark (v.sectorByte cluster s) (sectorRead v cluster s + 0) =
      mark (v.sectorByte cluster s) (v.sectorByte cluster s + 0) :=
    (hx 0 (by decide)).symm.trans (hx' 0 (by decide))
  rw [Nat.add_zero, Nat.add_zero, mark, mark, if_pos rfl] at hmark
  by_contra hne
  rw [if_neg hne] at hmark
  exact absurd hmark (by decide)

theorem sectors_le {v : Volume} (hhi : cluster ≤ v.clusterCount + 1) (hv : v.Accepted)
    (hs : s < v.sectorsPerCluster) :
    (cluster - 2) * v.sectorsPerCluster + s < v.clusterCount * v.sectorsPerCluster := by
  have hclusters := hv.clusters
  calc (cluster - 2) * v.sectorsPerCluster + s
      < (cluster - 2) * v.sectorsPerCluster + v.sectorsPerCluster := Nat.add_lt_add_left hs _
    _ = (cluster - 2 + 1) * v.sectorsPerCluster := (Nat.succ_mul _ _).symm
    _ ≤ v.clusterCount * v.sectorsPerCluster := Nat.mul_le_mul_right _ (by omega)

namespace Volume.Reaches

theorem fat {v : Volume} (h : v.Reaches cluster) : fatRead v cluster = v.fatByte cluster :=
  (fatRead_eq_iff v cluster).2 ⟨h.entry, h.fatSector, h.fatPlace⟩

theorem heap {v : Volume} (h : v.Reaches cluster) (hlo : 2 ≤ cluster)
    (hs : s < v.sectorsPerCluster) : sectorRead v cluster s = v.sectorByte cluster s := by
  have hsector := h.heapSector
  have hplace := h.heapPlace
  have hlast : v.sectorByte cluster s ≤ v.sectorByte cluster (v.sectorsPerCluster - 1) := by
    rw [sectorByte, sectorByte]
    omega
  exact (sectorRead_eq_iff v hlo s).2 ⟨by omega, Nat.lt_of_le_of_lt hlast hplace⟩

end Volume.Reaches

theorem Volume.InReach.reaches {v : Volume} (h : v.InReach) (hv : v.Accepted)
    (hhi : cluster ≤ v.clusterCount + 1) : v.Reaches cluster := by
  have hsectors := hv.sectors
  have hdiv : 4 * cluster / 512 ≤ 4 * (v.clusterCount + 1) / 512 :=
    Nat.div_le_div_right (Nat.mul_le_mul_left 4 hhi)
  have hlast := sectors_le hhi hv (Nat.sub_one_lt_of_lt hsectors)
  have hend : v.clusterHeapOffset + (cluster - 2) * v.sectorsPerCluster +
      (v.sectorsPerCluster - 1) ≤
        v.clusterHeapOffset + v.clusterCount * v.sectorsPerCluster - 1 := by
    omega
  refine ⟨Nat.lt_of_le_of_lt (Nat.mul_le_mul_left 4 hhi) h.entry,
    Nat.lt_of_le_of_lt (Nat.add_le_add_left hdiv _) h.fatSector,
    Nat.lt_of_le_of_lt (Nat.add_le_add_left (Nat.mul_le_mul_right _
      (Nat.add_le_add_left hdiv _)) _) h.fatPlace, ?_,
    Nat.lt_of_le_of_lt (Nat.add_le_add_left (Nat.mul_le_mul_right _ hend) _) h.heapPlace⟩
  have hheap := h.heapSector
  omega

theorem exact_iff {v : Volume} (hv : v.Accepted) : FatExact v ∧ HeapExact v ↔ v.InReach := by
  constructor
  · rintro ⟨hfat, hheap⟩
    have hclusters := hv.clusters
    have hsectors := hv.sectors
    obtain ⟨hentry, hsector, hplace⟩ := (fatRead_eq_iff v _).1
      (hfat.place hv (show 2 ≤ v.clusterCount + 1 by omega) (Nat.le_refl _))
    obtain ⟨hlast, hlast'⟩ := (sectorRead_eq_iff v (show 2 ≤ v.clusterCount + 1 by omega) _).1
      (hheap.place hv (s := v.sectorsPerCluster - 1) (by omega) (Nat.le_refl _) (by omega))
    have hmul : v.clusterCount * v.sectorsPerCluster =
        (v.clusterCount + 1 - 2) * v.sectorsPerCluster + v.sectorsPerCluster := by
      rw [← Nat.succ_mul]
      congr 1
      omega
    rw [Volume.sectorByte] at hlast'
    generalize (v.clusterCount + 1 - 2) * v.sectorsPerCluster = first at *
    have hend : v.clusterHeapOffset + (first + v.sectorsPerCluster) =
        v.clusterHeapOffset + first + (v.sectorsPerCluster - 1) + 1 := by
      clear hlast hlast' hplace hsector hentry
      omega
    refine ⟨hentry, hsector, hplace, ?_, ?_⟩
    · rw [hmul, hend]
      exact hlast
    · rw [hmul, hend]
      exact hlast'
  · intro h
    constructor
    · intro d hd cluster scratch hlo hhi
      rw [← (h.reaches hv hhi).fat]
      exact (exfatFatNext_reads hv hd scratch hlo hhi).mono fun _ hx => hx.1
    · intro d hd cluster s buf hlo hhi hs
      rw [← (h.reaches hv hhi).heap hlo hs]
      exact readSector_reads hv hd cluster s buf

/-- The disks do the same on reads of the FAT entries and of the sectors of the clusters of the
volume. -/
structure SameReads (v : Volume) (d d' : Disk) : Prop where
  fat : ∀ cluster, v.HasCluster cluster → ∀ buf,
    readSector d v (u32 (v.fatOffset + u32 (cluster * 4) / v.bytesPerSector)) buf =
      readSector d' v (u32 (v.fatOffset + u32 (cluster * 4) / v.bytesPerSector)) buf
  heap : ∀ cluster, v.HasCluster cluster → ∀ s < v.sectorsPerCluster, ∀ buf,
    readSector d v (u32 (exfatClusterToSector v cluster + s)) buf =
      readSector d' v (u32 (exfatClusterToSector v cluster + s)) buf

/-- Only clusters of the volume are looked up and read. -/
def Confined (v : Volume) : Prop :=
  ∀ d d', SameReads v d d' →
    (∀ cluster scratch, exfatFatNext d v cluster scratch = exfatFatNext d' v cluster scratch) ∧
    (∀ (χ : Type) stack (visit : EntrySet → χ → Int × χ) dirCluster cookie scratch,
      exfatWalkDir d stack v visit dirCluster cookie scratch =
        exfatWalkDir d' stack v visit dirCluster cookie scratch) ∧
    ∀ firstCluster dataLen noFat out scratch,
      exfatReadContents d v firstCluster dataLen noFat out scratch =
        exfatReadContents d' v firstCluster dataLen noFat out scratch

theorem loop_congr_all {body body' : α → Io (α ⊕ β)} (h : ∀ a, body a = body' a) (a : α) :
    Prog.loop body a = Prog.loop body' a := by rw [funext h]

theorem Collect.entry_place (c : Collect) (b : Buf) :
    (c.entry b).clu = c.clu ∧ (c.entry b).sec = c.sec := by
  rw [entry]
  cases c.stream with
  | none => dsimp only; split_ifs <;> exact ⟨rfl, rfl⟩
  | some stream => dsimp only; split_ifs <;> exact ⟨rfl, rfl⟩

section Confined

variable {v : Volume} {d d' : Disk} (h : SameReads v d d')

include h

theorem SameReads.fatNext (cluster : Nat) (scratch : Buf) :
    exfatFatNext d v cluster scratch = exfatFatNext d' v cluster scratch := by
  rw [exfatFatNext, exfatFatNext]
  split_ifs with hhas
  · rw [h.fat cluster hhas]
  · rfl

/-- The read-ahead is inside the volume. -/
def Collect.Inside (v : Volume) (c : Collect) : Prop :=
  v.HasCluster c.clu ∧ c.sec < v.sectorsPerCluster

omit h in
theorem Collect.Inside.advance {c : Collect} (hc : c.Inside v) (hpos : 0 < v.sectorsPerCluster) :
    Prog.Yields (c.advance d v) fun x => x.1 = true → x.2.Inside v := by
  rw [Collect.advance]
  split_ifs with hoff hsec
  · exact Prog.Yields.pure fun _ => hc
  · exact Prog.Yields.pure fun _ => ⟨hc.1, hsec⟩
  · apply Prog.Yields.bind (exfatFatNext_total d v c.clu c.scratch)
    intro y _
    exact Prog.Yields.pure fun hok => ⟨of_decide_eq_true hok, hpos⟩

theorem SameReads.collectRound (hpos : 0 < v.sectorsPerCluster) (stack : Buf) (needed : Nat)
    {c : Collect} (hc : c.Inside v) :
    collectRound d stack v needed c = collectRound d' stack v needed c := by
  have hadvance : c.advance d v = c.advance d' v := by
    rw [Collect.advance, Collect.advance, h.fatNext]
  rw [Exfat.collectRound, Exfat.collectRound, ← hadvance]
  split_ifs
  · apply Prog.bind_congr (hc.advance hpos)
    rintro ⟨ok, c'⟩ hin
    show collectEntry d stack v ok c' = collectEntry d' stack v ok c'
    rw [collectEntry, collectEntry]
    split_ifs with hok
    · obtain ⟨hclu, hsec⟩ := hin hok
      rw [h.heap c'.clu hclu c'.sec hsec]
    · rfl
  · rfl

omit h in
theorem Collect.Inside.round {c : Collect} (hc : c.Inside v) (hpos : 0 < v.sectorsPerCluster)
    (stack : Buf) (needed : Nat) :
    Prog.Yields (Exfat.collectRound d stack v needed c) fun x =>
      ∀ c', x = .inl c' → c'.Inside v := by
  rw [Exfat.collectRound]
  split_ifs
  · apply Prog.Yields.bind (hc.advance hpos)
    rintro ⟨ok, c'⟩ hin
    show Prog.Yields (collectEntry d stack v ok c') _
    rw [collectEntry]
    split_ifs with hok
    · apply Prog.Yields.bind (readSector_total d v _ stack)
      intro y _
      apply Prog.Yields.pure
      intro c'' heq
      split_ifs at heq
      obtain rfl := Sum.inl.inj heq
      obtain ⟨hclu, hsec⟩ := hin hok
      obtain ⟨hclu', hsec'⟩ := c'.entry_place y.2
      rw [Inside, hclu', hsec']
      exact ⟨hclu, hsec⟩
    · exact Prog.Yields.pure fun _ heq => absurd heq Sum.inr_ne_inl
  · exact Prog.Yields.pure fun _ heq => absurd heq Sum.inr_ne_inl

theorem SameReads.walkEntries (stack : Buf) (visit : EntrySet → χ → Int × χ) {cluster sec : Nat}
    (hhas : v.HasCluster cluster) (hsec : sec < v.sectorsPerCluster) (cookie : χ) (ret : Retcode)
    (scratch : Buf) :
    walkEntries d stack v visit cluster sec cookie ret scratch =
      walkEntries d' stack v visit cluster sec cookie ret scratch := by
  have hset (needed off : Nat) (b : Buf) : collectSet d stack v needed cluster sec off b =
      collectSet d' stack v needed cluster sec off b := by
    have hpos : 0 < v.sectorsPerCluster := Nat.zero_lt_of_lt hsec
    apply Prog.loop_congr (fun c : Collect => c.Inside v)
    · intro c hc
      exact h.collectRound hpos stack needed hc
    · intro c hc
      exact hc.round hpos stack needed
    · exact ⟨hhas, hsec⟩
  have hround (s : Sector χ) : entryRound d stack v visit cluster sec s =
      entryRound d' stack v visit cluster sec s := by
    rw [entryRound, entryRound, hset]
  rw [Exfat.walkEntries, Exfat.walkEntries, loop_congr_all hround]

theorem SameReads.walkDir (stack : Buf) (visit : EntrySet → χ → Int × χ) (dirCluster : Nat)
    (cookie : χ) (scratch : Buf) :
    exfatWalkDir d stack v visit dirCluster cookie scratch =
      exfatWalkDir d' stack v visit dirCluster cookie scratch := by
  apply loop_congr_all
  intro s
  rw [clusterRound, clusterRound]
  split_ifs with hmore
  · have hsectors (t : Nat × χ × Buf) : sectorRound d stack v visit s.cluster t =
        sectorRound d' stack v visit s.cluster t := by
      rw [sectorRound, sectorRound]
      split_ifs with hsec
      · rw [h.heap s.cluster hmore.1 t.1 hsec]
        congr 1
        funext x
        obtain ⟨ret, b⟩ := x
        dsimp only
        rw [h.walkEntries stack visit hmore.1 hsec]
      · rfl
    have hnext (x : (χ × Buf) ⊕ WalkEnd χ) : clusterNext d v s x = clusterNext d' v s x := by
      cases x with
      | inl y => rw [clusterNext, clusterNext, h.fatNext]
      | inr e => rfl
    rw [loop_congr_all hsectors, funext hnext]
  · rfl

theorem SameReads.readContents (firstCluster dataLen : Nat) (noFat : Bool) (out scratch : Buf) :
    exfatReadContents d v firstCluster dataLen noFat out scratch =
      exfatReadContents d' v firstCluster dataLen noFat out scratch := by
  apply loop_congr_all
  intro s
  rw [contentsRound, contentsRound]
  split_ifs with hmore
  · have hdata (t : Nat × Copied × Buf) : dataRound d v s.cluster dataLen t =
        dataRound d' v s.cluster dataLen t := by
      rw [dataRound, dataRound]
      split_ifs with hsec
      · rw [h.heap s.cluster hmore.2.1 t.1 hsec.1]
      · rfl
    rw [loop_congr_all hdata]
    congr 1
    funext x
    obtain ⟨ret, c, b⟩ := x
    show contentsNext d v dataLen noFat s ret c b = contentsNext d' v dataLen noFat s ret c b
    rw [contentsNext, contentsNext, h.fatNext]
  · rfl

end Confined

theorem confined (v : Volume) : Confined v := by
  intro d d' h
  refine ⟨h.fatNext, ?_, h.readContents⟩
  intro χ stack visit dirCluster cookie scratch
  exact h.walkDir stack visit dirCluster cookie scratch

theorem exfatOpenVolume_accepted (h : Prog.Halts (exfatOpenVolume d partLoc buf) w (some v) w') :
    v.Accepted := by
  rw [exfatOpenVolume] at h
  obtain ⟨⟨ret, b⟩, w₁, -, hpure⟩ := h.of_bind
  obtain ⟨hv, -⟩ := Prog.Halts.of_pure hpure
  split_ifs at hv with hok
  obtain rfl := Option.some.inj hv
  exact hok.2.accepted

/-- On a volume that `exfat_open_volume` accepts, the FAT entries and the sectors of all clusters
are read at their places just if the last ones are within reach. -/
theorem addresses_exact_iff (h : Prog.Halts (exfatOpenVolume d partLoc buf) w (some v) w') :
    FatExact v ∧ HeapExact v ∧ Confined v ↔ v.InReach := by
  rw [← exact_iff (exfatOpenVolume_accepted h)]
  constructor
  · rintro ⟨hfat, hheap, -⟩
    exact ⟨hfat, hheap⟩
  · rintro ⟨hfat, hheap⟩
    exact ⟨hfat, hheap, confined v⟩

/-- A boot sector of a volume with clusters of one sector, whose FAT begins at sector 24. -/
def bootImage (heapOffset clusterCount : Nat) : Disk :=
  (Disk.ofImage (written [slice 3 magic, le 80 4 24, le 88 4 heapOffset, le 92 4 clusterCount,
    le 96 4 2, be 108 1 9, be 109 1 0, le 510 2 0xAA55])).toDisk

theorem bootImage_opens (h : ((exfatOpenVolume (bootImage heapOffset clusterCount) 0
      fun _ => 0).run 0 Rdb.boot).map (fun x => x.1.map (·.clusterCount)) = some (some n)) :
    ∃ v w', Prog.Halts (exfatOpenVolume (bootImage heapOffset clusterCount) 0 fun _ => 0)
      Rdb.boot (some v) w' ∧ v.clusterCount = n := by
  obtain ⟨⟨x, w'⟩, hrun, hx⟩ := Option.map_eq_some_iff.1 h
  obtain ⟨v, hv, hcount⟩ := Option.map_eq_some_iff.1 hx
  have hrun' : Prog.Halts (exfatOpenVolume (bootImage heapOffset clusterCount) 0 fun _ => 0)
      Rdb.boot x w' := ⟨0, hrun⟩
  have hx' : x = some v := hv
  rw [hx'] at hrun'
  exact ⟨v, w', hrun', hcount⟩

theorem addresses_exact_small : ∃ v w',
    Prog.Halts (exfatOpenVolume (bootImage 32 100) 0 fun _ => 0) Rdb.boot (some v) w' ∧
      (FatExact v ∧ HeapExact v ∧ Confined v ↔ v.InReach) := by
  obtain ⟨v, w', hopen, -⟩ :=
    bootImage_opens (show ((exfatOpenVolume (bootImage 32 100) 0 fun _ => 0).run 0 Rdb.boot).map
      (fun x => x.1.map (·.clusterCount)) = some (some 100) by decide +kernel)
  exact ⟨v, w', hopen, addresses_exact_iff hopen⟩

/-- With `2 ^ 30` clusters, the place of the last FAT entry does not fit into 32 bits. -/
theorem addresses_wrap : ∃ v w',
    Prog.Halts (exfatOpenVolume (bootImage 8388640 1073741824) 0 fun _ => 0) Rdb.boot (some v) w' ∧
      ¬ (FatExact v ∧ HeapExact v ∧ Confined v) := by
  obtain ⟨v, w', hopen, hcount⟩ := bootImage_opens
    (show ((exfatOpenVolume (bootImage 8388640 1073741824) 0 fun _ => 0).run 0 Rdb.boot).map
      (fun x => x.1.map (·.clusterCount)) = some (some 1073741824) by decide +kernel)
  refine ⟨v, w', hopen, ?_⟩
  rintro ⟨hfat, hheap, -⟩
  have hreach := (exact_iff (exfatOpenVolume_accepted hopen)).1 ⟨hfat, hheap⟩
  have hentry := hreach.entry
  rw [hcount] at hentry
  exact absurd hentry (by decide)

end Exfat

end Pegasos2.Fs
