import Pegasos2.ExfatContents
import Pegasos2.ByteFields
import Mathlib.Data.List.Forall2

namespace Pegasos2.Fs
open Program
open PartitionPkg (Agree)
set_option autoImplicit true

namespace Exfat

/-- Sector `t` of a directory. -/
def Volume.dirSector (v : Volume) (image : Nat → UInt8) (first t : Nat) : Buf := fun j =>
  image (v.sectorByte (v.fileCluster image false first (t / v.sectorsPerCluster))
    (t % v.sectorsPerCluster) + j)

/-- Entry `g` of a directory. -/
def Volume.dirEntry (v : Volume) (image : Nat → UInt8) (first g : Nat) : Buf := fun j =>
  v.dirSector image first (g / 16) (32 * (g % 16) + j)

/-- The sector of the FAT with the entry of a cluster. -/
def Volume.fatSector (v : Volume) (image : Nat → UInt8) (cluster : Nat) : Buf := fun j =>
  image (v.partLoc + (v.fatOffset + 4 * cluster / 512) * 512 + j)

/-- Unit `j` of a name whose entries begin at entry `g`. -/
def nameUnit (entry : Nat → Buf) (g j : Nat) : UInt8 × UInt8 :=
  (entry (g + j / 15) (2 + j % 15 * 2), entry (g + j / 15) (2 + j % 15 * 2 + 1))

/-- The set whose file entry is entry `i`. -/
def entrySet (entry : Nat → Buf) (i : Nat) : EntrySet where
  fileEntry := entry i
  streamEntry := entry (i + 1)
  name := (List.range ((entry (i + 1)).nat 3)).map (nameUnit entry (i + 2))

/-- An entry that neither ends the directory nor begins a set. -/
def Benign (b : Buf) (off : Nat) : Prop :=
  b.nat off ≠ entEndOfDir ∧ ¬ (b.nat off = entFile ∧ 2 ≤ b.nat (off + 1))

/-- Entry `i` begins a set with `count` secondary entries: a stream entry, the entries of the name,
and possibly others. -/
structure SetAt (entry : Nat → Buf) (i count : Nat) : Prop where
  file : (entry i).nat 0 = entFile
  count_eq : (entry i).nat 1 = count
  two_le : 2 ≤ count
  stream : (entry (i + 1)).nat 0 = entStreamExt
  name : ∀ k, k * 15 < (entry (i + 1)).nat 3 →
    k + 2 ≤ count ∧ (entry (i + 2 + k)).nat 0 = entFileName
  benign : ∀ g, i < g → g ≤ i + count → Benign (entry g) 0

/-- The entries from `i` on of a directory with `n` entries, and its sets, each with the number of
its secondary entries. -/
inductive Directory (entry : Nat → Buf) (n : Nat) : Nat → List (Nat × Nat) → Prop where
  | full : Directory entry n n []
  | stop (hin : i < n) (h : (entry i).nat 0 = entEndOfDir) : Directory entry n i []
  | other (hin : i < n) (h : (entry i).nat 0 ≠ entEndOfDir) (h' : (entry i).nat 0 ≠ entFile)
      (rest : Directory entry n (i + 1) l) : Directory entry n i l
  | set (h : SetAt entry i count) (hin : i + count < n)
      (rest : Directory entry n (i + 1 + count) l) : Directory entry n i ((i, count) :: l)

theorem Directory.at_lt (h : Directory entry n i l) (hi : i < n) :
    (l = [] ∧ (entry i).nat 0 = entEndOfDir) ∨
      ((entry i).nat 0 ≠ entEndOfDir ∧ (entry i).nat 0 ≠ entFile ∧ Directory entry n (i + 1) l) ∨
      ∃ count left, l = (i, count) :: left ∧ SetAt entry i count ∧ i + count < n ∧
        Directory entry n (i + 1 + count) left := by
  cases h with
  | full => exact absurd hi (Nat.lt_irrefl n)
  | stop _ hstop => exact .inl ⟨rfl, hstop⟩
  | other _ hne hne' hrest => exact .inr (.inl ⟨hne, hne', hrest⟩)
  | set hset hin hrest => exact .inr (.inr ⟨_, _, rfl, hset, hin, hrest⟩)

theorem Directory.at_end (h : Directory entry n i l) (hi : n ≤ i) : l = [] := by
  cases h with
  | full => rfl
  | stop _ _ => rfl
  | other hin _ _ _ => exact absurd hin (Nat.not_lt.2 hi)
  | set _ hin _ => exact absurd hin (by omega)

/-- The first entries of two buffers are the same. -/
structure EntrySet.Same (a b : EntrySet) : Prop where
  file : Agree 32 a.fileEntry b.fileEntry
  stream : Agree 32 a.streamEntry b.streamEntry
  name : a.name = b.name

/-- The chain of `m` clusters of a directory. -/
structure Volume.HasDir (v : Volume) (image : Nat → UInt8) (first m : Nat) : Prop where
  clusters : m ≤ 65536
  pos : 0 < m
  inside : ∀ k < m, 2 ≤ v.fileCluster image false first k ∧
    v.fileCluster image false first k ≤ v.clusterCount + 1
  last : ¬ v.HasCluster (v.fileCluster image false first m)

/-- The FAT entries and the sectors of the clusters of a directory are within reach. -/
def Volume.ReachesDir (v : Volume) (image : Nat → UInt8) (first m : Nat) : Prop :=
  ∀ k < m, v.Reaches (v.fileCluster image false first k)

/-- The cluster of an entry, as its place in the chain. -/
def Volume.clusterOf (v : Volume) (g : Nat) : Nat := g / 16 / v.sectorsPerCluster

/-- No set of the directory crosses into another cluster, unless the FAT sector that has been read
last for it has harmless bytes at the places behind its file entry. -/
def Undisturbed (v : Volume) (image : Nat → UInt8) (first : Nat) (l : List (Nat × Nat)) : Prop :=
  ∀ x ∈ l, v.clusterOf x.1 ≠ v.clusterOf (x.1 + x.2) → ∀ p, x.1 % 16 < p → p < 16 →
    Benign (v.fatSector image
      (v.fileCluster image false first (v.clusterOf (x.1 + x.2) - 1))) (32 * p)

section Directory

variable {v : Volume} (hv : v.Accepted) {d : ImageDisk} (hd : d.Reads) {first m : Nat}
  (hreach : v.ReachesDir d.image first m) (hdir : v.HasDir d.image first m) (stack : Buf)

theorem lt_of_clusterOf (hv : v.Accepted) (hg : g < m * v.sectorsPerCluster * 16) :
    v.clusterOf g < m := by
  rw [Volume.clusterOf, Nat.div_lt_iff_lt_mul hv.sectors, Nat.div_lt_iff_lt_mul (by decide)]
  exact hg

/-- The sector behind a sector is in the same cluster, or the first one of the next cluster. -/
theorem sector_succ (hv : v.Accepted) (t : Nat) :
    (t % v.sectorsPerCluster + 1 < v.sectorsPerCluster ∧
      (t + 1) / v.sectorsPerCluster = t / v.sectorsPerCluster ∧
      (t + 1) % v.sectorsPerCluster = t % v.sectorsPerCluster + 1) ∨
    (t % v.sectorsPerCluster + 1 = v.sectorsPerCluster ∧
      (t + 1) / v.sectorsPerCluster = t / v.sectorsPerCluster + 1 ∧
      (t + 1) % v.sectorsPerCluster = 0) := by
  have hpos := hv.sectors
  generalize v.sectorsPerCluster = n at *
  have hmod := Nat.mod_lt t hpos
  have hsplit := Nat.div_add_mod t n
  by_cases hlt : t % n + 1 < n
  · refine .inl ⟨hlt, ?_, ?_⟩
    · rw [← hsplit, Nat.add_assoc, Nat.mul_add_div hpos, Nat.div_eq_of_lt hlt, hsplit, Nat.add_zero]
    · rw [← hsplit, Nat.add_assoc, Nat.mul_add_mod, Nat.mod_eq_of_lt hlt, hsplit]
  · have hlast : t % n + 1 = n := by omega
    refine .inr ⟨hlast, ?_, ?_⟩
    · rw [← hsplit, Nat.add_assoc, hlast, Nat.mul_add_div hpos, Nat.div_self hpos, hsplit]
    · rw [← hsplit, Nat.add_assoc, hlast, Nat.mul_add_mod, Nat.mod_self]

/-- The read-ahead for the set at `i` is at entry `g`, or behind it if `width` is 32. Its buffer is
the one of the scan, or holds the sector of the FAT that has led to the current cluster. -/
structure Cursor (v : Volume) (image : Nat → UInt8) (first : Nat) (scratch : Buf)
    (i g width : Nat) (c : Collect) : Prop where
  clu : c.clu = v.fileCluster image false first (v.clusterOf g)
  sec : c.sec = g / 16 % v.sectorsPerCluster
  off : c.off = 32 * (g % 16) + width
  buf : v.clusterOf g = v.clusterOf i ∧ c.scratch = scratch ∨
    v.clusterOf g ≠ v.clusterOf i ∧ Agree 512 c.scratch
      (v.fatSector image (v.fileCluster image false first (v.clusterOf g - 1)))

/-- What the step to the next entry leaves as it is. -/
def Collect.SameSet (c c' : Collect) : Prop :=
  c'.collected = c.collected ∧ c'.stream = c.stream ∧ c'.name = c.name

theorem fatSector_reads (hv : v.Accepted) (hreach : v.Reaches cluster) (hd : d.Reads)
    (hlo : 2 ≤ cluster) (hhi : cluster ≤ v.clusterCount + 1) (scratch : Buf) :
    Prog.Yields (exfatFatNext d.toDisk v cluster scratch) fun x =>
      x.1 = v.fatEntry d.image cluster ∧ Agree 512 x.2 (v.fatSector d.image cluster) := by
  have hread := exfatFatNext_reads hv hd scratch hlo hhi
  have hplace : fatSectorRead v cluster =
      v.partLoc + (v.fatOffset + 4 * cluster / 512) * 512 := by
    have hfour : u32 (cluster * 4) = 4 * cluster := by
      rw [u32, Nat.mul_comm, Nat.mod_eq_of_lt hreach.entry]
    have hsec : u32 (v.fatOffset + 4 * cluster / 512) = v.fatOffset + 4 * cluster / 512 :=
      Nat.mod_eq_of_lt hreach.fatSector
    rw [fatSectorRead, hfour, hsec, u64, Nat.mod_eq_of_lt hreach.fatPlace]
  rw [hreach.fat, hplace] at hread
  exact hread

include hv hd hreach hdir

theorem Cursor.advance {scratch : Buf} {c : Collect}
    (hc : Cursor v d.image first scratch i g 32 c) (hle : v.clusterOf i ≤ v.clusterOf g)
    (hin : g + 1 < m * v.sectorsPerCluster * 16) :
    Prog.Yields (c.advance d.toDisk v) fun x =>
      x.1 = true ∧ Cursor v d.image first scratch i (g + 1) 0 x.2 ∧ c.SameSet x.2 := by
  have hoff := hc.off
  have hsec := hc.sec
  rw [Collect.advance, hv.bytes]
  by_cases hentry : g % 16 + 1 < 16
  · have hsame : (g + 1) / 16 = g / 16 := by omega
    have hmod : (g + 1) % 16 = g % 16 + 1 := by omega
    have hcluster : v.clusterOf (g + 1) = v.clusterOf g := by
      rw [Volume.clusterOf, hsame, Volume.clusterOf]
    rw [if_pos (by omega)]
    apply Prog.Yields.pure
    refine ⟨rfl, ⟨?_, ?_, ?_, ?_⟩, rfl, rfl, rfl⟩
    · rw [hcluster]
      exact hc.clu
    · rw [hsame]
      exact hc.sec
    · rw [hmod, hoff]
      omega
    · rw [hcluster]
      exact hc.buf
  · have hnext : (g + 1) / 16 = g / 16 + 1 := by omega
    have hmod : (g + 1) % 16 = 0 := by omega
    rw [if_neg (by omega)]
    obtain ⟨hlt, hdiv, hrem⟩ | ⟨hlast, hdiv, hrem⟩ := sector_succ hv (g / 16)
    · have hcluster : v.clusterOf (g + 1) = v.clusterOf g := by
        rw [Volume.clusterOf, hnext, hdiv, Volume.clusterOf]
      rw [if_pos (by rw [hsec]; exact hlt)]
      apply Prog.Yields.pure
      refine ⟨rfl, ⟨?_, ?_, ?_, ?_⟩, rfl, rfl, rfl⟩
      · rw [hcluster]
        exact hc.clu
      · rw [hnext, hrem, ← hsec]
      · rw [hmod]
      · rw [hcluster]
        exact hc.buf
    · have hcluster : v.clusterOf (g + 1) = v.clusterOf g + 1 := by
        rw [Volume.clusterOf, hnext, hdiv, Volume.clusterOf]
      have hprev : v.clusterOf g < m := lt_of_clusterOf hv (by omega)
      have hthis : v.clusterOf (g + 1) < m := lt_of_clusterOf hv hin
      obtain ⟨hlo, hhi⟩ := hdir.inside _ hprev
      have hread := fatSector_reads hv (hreach _ hprev) hd hlo hhi c.scratch
      rw [if_neg (by rw [hsec, hlast]; exact Nat.lt_irrefl _), hc.clu]
      apply Prog.Yields.bind hread
      rintro ⟨clu, b⟩ ⟨hclu, hb⟩
      apply Prog.Yields.pure
      have hsucc : clu = v.fileCluster d.image false first (v.clusterOf (g + 1)) := by
        rw [hcluster]
        exact hclu
      have hhas := (hv.hasCluster clu).2 (by rw [hsucc]; exact hdir.inside _ hthis)
      refine ⟨decide_eq_true hhas, ⟨hsucc, ?_, ?_, ?_⟩, rfl, rfl, rfl⟩
      · rw [hnext, hrem]
      · rw [hmod]
      · refine .inr ⟨by omega, ?_⟩
        rw [hcluster, Nat.add_sub_cancel]
        exact hb

theorem dirSector_reads (ht : t / v.sectorsPerCluster < m) (buf : Buf) :
    Prog.Yields (readSector d.toDisk v (u32 (exfatClusterToSector v
      (v.fileCluster d.image false first (t / v.sectorsPerCluster)) + t % v.sectorsPerCluster)) buf)
      fun x => x.1 = .noError ∧ Agree 512 x.2 (v.dirSector d.image first t) := by
  obtain ⟨hlo, hhi⟩ := hdir.inside _ ht
  have hread := readSector_reads hv hd (v.fileCluster d.image false first (t / v.sectorsPerCluster))
    (t % v.sectorsPerCluster) buf
  rw [(hreach _ ht).heap hlo (Nat.mod_lt _ hv.sectors)] at hread
  exact hread

omit hv hd hreach hdir

/-- What the read-ahead has collected after `q` secondary entries of the set at `i`. -/
def Collect.Holds (entry : Nat → Buf) (i : Nat) (c : Collect) : Nat → Prop
  | 0 => c.stream = none ∧ c.name = []
  | q + 1 => ∃ stream, c.stream = some stream ∧ Agree 32 stream (entry (i + 1)) ∧
      c.name = (List.range (min ((entry (i + 1)).nat 3) (q * 15))).map (nameUnit entry (i + 2))

theorem range_map_append (f : Nat → α) (a n : Nat) :
    (List.range a).map f ++ (List.range n).map (fun t => f (a + t)) =
      (List.range (a + n)).map f := by
  rw [List.range_add, List.map_append, List.map_map]
  rfl

theorem nameUnits_eq {entry : Nat → Buf} {b : Buf} (hn : n ≤ 15)
    (hb : ∀ j < 32, b (off + j) = entry (i + 2 + q) j) :
    nameUnits b off n = (List.range n).map fun t => nameUnit entry (i + 2) (q * 15 + t) := by
  apply List.map_congr_left
  intro t ht
  have ht := List.mem_range.1 ht
  have hdiv : (q * 15 + t) / 15 = q := by omega
  have hmod : (q * 15 + t) % 15 = t := by omega
  rw [nameUnit, hdiv, hmod, ← hb (2 + t * 2) (by omega), ← hb (2 + t * 2 + 1) (by omega)]
  rw [← Nat.add_assoc, ← Nat.add_assoc, ← Nat.add_assoc]

theorem Collect.Holds.name {entry : Nat → Buf} {c : Collect} {b : Buf}
    (hc : c.Holds entry i (q + 1)) (hset : SetAt entry i count)
    (hb : ∀ j < 32, b (c.off + j) = entry (i + 2 + q) j) : (c.entry b).Holds entry i (q + 2) := by
  obtain ⟨stream, hstream, hagree, hname⟩ := hc
  have hlen : stream.nat 3 = (entry (i + 1)).nat 3 := congrArg UInt8.toNat (hagree 3 (by decide))
  have hlt : (entry (i + 1)).nat 3 < 256 := Buf.nat_lt _ _
  have hheld : c.name.length = min ((entry (i + 1)).nat 3) (q * 15) := by
    rw [hname, List.length_map, List.length_range]
  have htype : b.nat c.off = (entry (i + 2 + q)).nat 0 := by
    have h0 := hb 0 (by decide)
    rw [Nat.add_zero] at h0
    exact congrArg UInt8.toNat h0
  rw [Collect.entry, hstream]
  dsimp only
  by_cases hmore : q * 15 < (entry (i + 1)).nat 3
  · obtain ⟨-, hfile⟩ := hset.name q hmore
    have hroom : c.room stream = min 15 ((entry (i + 1)).nat 3 - q * 15) := by
      rw [room, hlen, hheld]
      omega
    rw [if_pos (htype.trans hfile)]
    refine ⟨stream, rfl, hagree, ?_⟩
    dsimp only
    rw [hname, hroom, nameUnits_eq (Nat.min_le_left _ _) hb,
      Nat.min_eq_right (Nat.le_of_lt hmore), range_map_append]
    congr 2
    omega
  · have hsame : min ((entry (i + 1)).nat 3) (q * 15) =
        min ((entry (i + 1)).nat 3) ((q + 1) * 15) := by omega
    rw [hsame] at hname
    split_ifs
    · have hroom : c.room stream = 0 := by
        rw [room, hlen, hheld]
        omega
      refine ⟨stream, rfl, hagree, ?_⟩
      rw [hroom]
      exact (List.append_nil _).trans hname
    · exact ⟨stream, rfl, hagree, hname⟩

theorem Collect.Holds.entry {entry : Nat → Buf} {c : Collect} {b : Buf}
    (hc : c.Holds entry i q) (hset : SetAt entry i count)
    (hb : ∀ j < 32, b (c.off + j) = entry (i + q + 1) j) : (c.entry b).Holds entry i (q + 1) := by
  cases q with
  | zero =>
    obtain ⟨hstream, hname⟩ := hc
    have htype : b.nat c.off = (entry (i + 1)).nat 0 := by
      have h0 := hb 0 (by decide)
      rw [Nat.add_zero] at h0
      exact congrArg UInt8.toNat h0
    rw [Collect.entry, hstream]
    dsimp only
    rw [if_pos (htype.trans hset.stream)]
    refine ⟨_, rfl, fun j hj => hb j hj, ?_⟩
    dsimp only
    rw [hname, Nat.zero_mul, Nat.min_zero]
    rfl
  | succ q =>
    apply hc.name hset
    have hplace : i + (q + 1) + 1 = i + 2 + q := by omega
    rw [hplace] at hb
    exact hb

theorem Collect.entry_off (c : Collect) (b : Buf) :
    (c.entry b).off = c.off + 32 ∧ (c.entry b).scratch = c.scratch := by
  rw [entry]
  cases c.stream with
  | none => dsimp only; split_ifs <;> exact ⟨rfl, rfl⟩
  | some stream => dsimp only; split_ifs <;> exact ⟨rfl, rfl⟩

theorem Cursor.entry {scratch : Buf} {c : Collect} (hc : Cursor v image first scratch i g 0 c)
    (b : Buf) : Cursor v image first scratch i g 32 (c.entry b) := by
  obtain ⟨hclu, hsec⟩ := c.entry_place b
  obtain ⟨hoff, hscratch⟩ := c.entry_off b
  refine ⟨hclu.trans hc.clu, hsec.trans hc.sec, ?_, ?_⟩
  · rw [hoff, hc.off]
  · rw [hscratch]
    exact hc.buf

theorem clusterOf_mono (v : Volume) (h : i ≤ g) : v.clusterOf i ≤ v.clusterOf g :=
  Nat.div_le_div_right (Nat.div_le_div_right h)

/-- The state of the read-ahead after `q` secondary entries. -/
structure Ahead (v : Volume) (image : Nat → UInt8) (first : Nat) (scratch : Buf) (i q : Nat)
    (c : Collect) : Prop where
  collected : c.collected = q + 1
  cursor : Cursor v image first scratch i (i + q) 32 c
  held : c.Holds (v.dirEntry image first) i q

include hv hd hreach hdir

theorem Ahead.round {scratch : Buf} {c : Collect} (hc : Ahead v d.image first scratch i q c)
    (hset : SetAt (v.dirEntry d.image first) i count) (hq : q < count)
    (hin : i + count < m * v.sectorsPerCluster * 16) :
    Prog.Yields (collectRound d.toDisk stack v (1 + count) c) fun x =>
      ∃ c', x = .inl c' ∧ Ahead v d.image first scratch i (q + 1) c' := by
  have hcollected := hc.collected
  have hnext : i + q + 1 < m * v.sectorsPerCluster * 16 := by omega
  rw [collectRound, if_pos (by omega)]
  apply Prog.Yields.bind (hc.cursor.advance hv hd hreach hdir (clusterOf_mono v (by omega)) hnext)
  rintro ⟨ok, c'⟩ ⟨hok, hcursor, hsame, hstream, hname⟩
  dsimp only at hok hcursor hsame hstream hname
  show Prog.Yields (collectEntry d.toDisk stack v ok c') _
  rw [collectEntry, if_pos hok, hcursor.clu, hcursor.sec]
  apply Prog.Yields.bind (dirSector_reads hv hd hreach hdir (lt_of_clusterOf hv hnext) stack)
  rintro ⟨ret, b⟩ ⟨hret, hb⟩
  apply Prog.Yields.pure
  rw [if_neg fun hne => hne hret]
  have hentry (j : Nat) (hj : j < 32) :
      b (c'.off + j) = v.dirEntry d.image first (i + q + 1) j := by
    rw [hcursor.off, Volume.dirEntry]
    exact hb _ (by omega)
  have hheld : c'.Holds (v.dirEntry d.image first) i q := by
    have hheld := hc.held
    cases q with
    | zero => exact ⟨hstream.trans hheld.1, hname.trans hheld.2⟩
    | succ q =>
      obtain ⟨stream, hs, hagree, hn⟩ := hheld
      exact ⟨stream, hstream.trans hs, hagree, hname.trans hn⟩
  refine ⟨c'.entry b, rfl, ?_, hcursor.entry b, hheld.entry hset hentry⟩
  rw [Collect.entry_collected, hsame, hcollected]

theorem collectSet_ahead (hset : SetAt (v.dirEntry d.image first) i count)
    (hin : i + count < m * v.sectorsPerCluster * 16) (scratch : Buf) :
    Prog.Yields (collectSet d.toDisk stack v (1 + count)
      (v.fileCluster d.image false first (v.clusterOf i)) (i / 16 % v.sectorsPerCluster)
      (32 * (i % 16)) scratch) fun x =>
        x.1 = true ∧ Ahead v d.image first scratch i count x.2 := by
  apply Prog.Yields.loop (fun c => ∃ q ≤ count, Ahead v d.image first scratch i q c)
    (fun c => count + 1 - c.collected)
  · rintro c ⟨q, hq, hc⟩
    have hcollected := hc.collected
    by_cases hmore : q < count
    · apply (hc.round hv hd hreach hdir stack hset hmore hin).mono
      rintro x ⟨c', rfl, hc'⟩
      refine ⟨⟨q + 1, hmore, hc'⟩, ?_⟩
      dsimp only
      rw [hc'.collected, hcollected]
      omega
    · obtain rfl : q = count := by omega
      rw [collectRound, if_neg (by omega)]
      exact Prog.Yields.pure ⟨rfl, hc⟩
  · exact ⟨0, Nat.zero_le _, rfl, ⟨rfl, rfl, rfl, .inl ⟨rfl, rfl⟩⟩, rfl, rfl⟩

omit hv hd hreach hdir

variable (visit : EntrySet → χ → Int × χ) (cookie₀ : χ)

/-- The calls of `visit` so far are those for the sets of `l`, in their order. -/
def Visited (entry : Nat → Buf) (l : List (Nat × Nat)) (cookie : χ) : Prop :=
  ∃ calls, List.Forall₂ EntrySet.Same calls (l.map fun x => entrySet entry x.1) ∧
    cookie = calls.foldl (fun c set => (visit set c).2) cookie₀

theorem Visited.next {entry : Nat → Buf} (h : Visited visit cookie₀ entry l cookie)
    {set : EntrySet} (hset : set.Same (entrySet entry i)) :
    Visited visit cookie₀ entry (l ++ [(i, count)]) (visit set cookie).2 := by
  obtain ⟨calls, hcalls, rfl⟩ := h
  refine ⟨calls ++ [set], ?_, ?_⟩
  · rw [List.map_append]
    exact List.rel_append hcalls (.cons hset .nil)
  · rw [List.foldl_append]
    rfl

/-- The scan has come to entry `i`, which may be inside of a set that has been visited and ends
before entry `e`. -/
structure Scanned (v : Volume) (image : Nat → UInt8) (first m : Nat) (all : List (Nat × Nat))
    (i e : Nat) (cookie : χ) : Prop where
  le : i ≤ e
  benign : ∀ g, i ≤ g → g < e → Benign (v.dirEntry image first g) 0
  rest : ∃ done left, all = done ++ left ∧
    Directory (v.dirEntry image first) (m * v.sectorsPerCluster * 16) e left ∧
    Visited visit cookie₀ (v.dirEntry image first) done cookie

/-- The buffer of the scan in sector `t`: from the end of the set on it holds the entries of the
directory, before that nothing that matters. -/
def Buffered (v : Volume) (image : Nat → UInt8) (first t p e : Nat) (scratch : Buf) : Prop :=
  ∀ q, p ≤ q → q < 16 →
    (16 * t + q < e → Benign scratch (32 * q)) ∧
    (e ≤ 16 * t + q → ∀ j < 32, scratch (32 * q + j) = v.dirEntry image first (16 * t + q) j)

/-- What holds before a round of the loop over the entries of sector `t`. -/
def InSector (v : Volume) (image : Nat → UInt8) (first m : Nat) (all : List (Nat × Nat)) (t : Nat)
    (s : Sector χ) : Prop :=
  ∃ p e, p ≤ 16 ∧ s.off = 32 * p ∧
    Scanned visit cookie₀ v image first m all (16 * t + p) e s.cookie ∧
    Buffered v image first t p e s.scratch

/-- What the loop over the entries leaves: the end of the walk, or the way to the next sector. -/
def SectorDone (v : Volume) (image : Nat → UInt8) (first m : Nat) (all : List (Nat × Nat))
    (t : Nat) : Sector χ ⊕ WalkEnd χ → Prop
  | .inl s => ∃ e, Scanned visit cookie₀ v image first m all (16 * (t + 1)) e s.cookie
  | .inr e => e.ret = .noError ∧ Visited visit cookie₀ (v.dirEntry image first) all e.cookie

theorem dirEntry_at (v : Volume) (image : Nat → UInt8) (hp : p < 16) (j : Nat) :
    v.dirEntry image first (16 * t + p) j = v.dirSector image first t (32 * p + j) := by
  have hdiv : (16 * t + p) / 16 = t := by omega
  have hmod : (16 * t + p) % 16 = p := by omega
  rw [Volume.dirEntry, hdiv, hmod]

theorem Benign.congr {b c : Buf} (h : Benign b off) (h0 : c off' = b off)
    (h1 : c (off' + 1) = b (off + 1)) : Benign c off' := by
  rw [Benign, Buf.nat, Buf.nat, h0, h1]
  exact h

theorem InSector.pass {image : Nat → UInt8} {s : Sector χ} (hp : p < 16) (hoff : s.off = 32 * p)
    (hscan : Scanned visit cookie₀ v image first m all (16 * t + p + 1) e s.cookie)
    (hbuf : Buffered v image first t (p + 1) e s.scratch) :
    InSector visit cookie₀ v image first m all t { s with off := s.off + 32 } := by
  refine ⟨p + 1, e, hp, ?_, hscan, hbuf⟩
  show s.off + 32 = 32 * (p + 1)
  omega

theorem Ahead.buffered {image : Nat → UInt8} {scratch : Buf} {c : Collect}
    (hc : Ahead v image first scratch (16 * t + p) count c) (hp : p < 16)
    (hset : SetAt (v.dirEntry image first) (16 * t + p) count)
    (hbuf : Buffered v image first t p (16 * t + p) scratch)
    (hcross : v.clusterOf (16 * t + p) ≠ v.clusterOf (16 * t + p + count) →
      ∀ q, p < q → q < 16 → Benign (v.fatSector image
        (v.fileCluster image false first (v.clusterOf (16 * t + p + count) - 1))) (32 * q)) :
    Buffered v image first t (p + 1) (16 * t + p + 1 + count) c.scratch := by
  intro q hq hq'
  obtain ⟨hsame, hscratch⟩ | ⟨hne, hfat⟩ := hc.cursor.buf
  · rw [hscratch]
    obtain ⟨-, hagree⟩ := hbuf q (by omega) hq'
    have hentry := hagree (by omega)
    refine ⟨fun hlt => ?_, fun hle => hentry⟩
    apply (hset.benign (16 * t + q) (by omega) (by omega)).congr
    · exact hentry 0 (by decide)
    · exact hentry 1 (by decide)
  · -- The set goes on behind the sector.
    have hbeyond : 16 * t + 16 ≤ 16 * t + p + count := by
      by_contra hlt
      apply hne
      have hsector : (16 * t + p + count) / 16 = (16 * t + p) / 16 := by omega
      rw [Volume.clusterOf, hsector, Volume.clusterOf]
    refine ⟨fun _ => ?_, fun hle => absurd hle (by omega)⟩
    apply (hcross (Ne.symm hne) q (by omega) hq').congr
    · exact hfat _ (by omega)
    · exact hfat _ (by omega)

section Round

variable (hvisit : ∀ set cookie, (visit set cookie).1 = 0) {all : List (Nat × Nat)}
  (hfree : Undisturbed v d.image first all)

include hv hd hreach hdir hvisit hfree

theorem entryRound_set {s : Sector χ} (hp : p < 16)
    (hoff : s.off = 32 * p) (hbuf : Buffered v d.image first t p (16 * t + p) s.scratch)
    (hset : SetAt (v.dirEntry d.image first) (16 * t + p) count)
    (hin : 16 * t + p + count < m * v.sectorsPerCluster * 16)
    (hrest : Directory (v.dirEntry d.image first) (m * v.sectorsPerCluster * 16)
      (16 * t + p + 1 + count) left)
    (hall : all = done ++ (16 * t + p, count) :: left)
    (hvisited : Visited visit cookie₀ (v.dirEntry d.image first) done s.cookie) :
    Prog.Yields (collectSet d.toDisk stack v (1 + count)
      (v.fileCluster d.image false first (t / v.sectorsPerCluster)) (t % v.sectorsPerCluster) s.off
      s.scratch) fun x => ∃ s', visitSet visit s x.2.scratch (x.2.set x.1 s) = .inl s' ∧
        s'.off = s.off + 32 ∧ InSector visit cookie₀ v d.image first m all t s' := by
  have hdiv : (16 * t + p) / 16 = t := by omega
  have hmod : (16 * t + p) % 16 = p := by omega
  have hahead := collectSet_ahead hv hd hreach hdir stack hset hin s.scratch
  rw [Volume.clusterOf, hdiv, hmod, ← hoff] at hahead
  apply hahead.mono
  rintro ⟨ok, c⟩ ⟨hok, hc⟩
  dsimp only at hok hc ⊢
  have htwo := hset.two_le
  obtain ⟨q, rfl⟩ : ∃ q, count = q + 1 := ⟨count - 1, by omega⟩
  obtain ⟨stream, hstream, hagree, hname⟩ := hc.held
  have hfull : min ((v.dirEntry d.image first (16 * t + p + 1)).nat 3) (q * 15) =
      (v.dirEntry d.image first (16 * t + p + 1)).nat 3 := by
    apply Nat.min_eq_left
    by_contra hlt
    have hle := (hset.name q (by omega)).1
    omega
  rw [hfull] at hname
  have hsame : EntrySet.Same ⟨fun i => s.scratch (s.off + i), stream, c.name⟩
      (entrySet (v.dirEntry d.image first) (16 * t + p)) := by
    refine ⟨fun j hj => ?_, hagree, hname⟩
    obtain ⟨-, hentry⟩ := hbuf p (Nat.le_refl p) hp
    rw [hoff]
    exact hentry (Nat.le_refl _) j hj
  rw [Collect.set, if_pos hok, hstream, Option.map_some, visitSet, hvisit]
  refine ⟨_, if_neg (by decide), rfl, p + 1, 16 * t + p + 1 + (q + 1), hp, ?_, ?_, ?_⟩
  · show s.off + 32 = 32 * (p + 1)
    omega
  · refine ⟨by omega, fun g hg hg' => hset.benign g (by omega) (by omega), ?_⟩
    refine ⟨done ++ [(16 * t + p, q + 1)], left, ?_, hrest, hvisited.next visit cookie₀ hsame⟩
    rw [hall, List.append_assoc]
    rfl
  · apply hc.buffered hp hset hbuf
    intro hne
    have hmem : (16 * t + p, q + 1) ∈ all := by
      rw [hall]
      exact List.mem_append_right _ List.mem_cons_self
    have hharmless := hfree _ hmem hne
    dsimp only at hharmless
    rw [hmod] at hharmless
    exact hharmless

theorem entryRound_scans (ht : t < m * v.sectorsPerCluster) {s : Sector χ}
    (hs : InSector visit cookie₀ v d.image first m all t s) :
    Prog.Yields (entryRound d.toDisk stack v visit
      (v.fileCluster d.image false first (t / v.sectorsPerCluster)) (t % v.sectorsPerCluster) s)
      (Prog.Yields.Next (InSector visit cookie₀ v d.image first m all t) (fun s => 512 - s.off)
        (512 - s.off) (SectorDone visit cookie₀ v d.image first m all t)) := by
  obtain ⟨p, e, hp, hoff, hscan, hbuf⟩ := hs
  obtain ⟨hle, hbenign, done, left, hall, hdirectory, hvisited⟩ := hscan
  rw [entryRound, hv.bytes]
  by_cases hend : p = 16
  · rw [if_neg (by omega)]
    apply Prog.Yields.pure
    refine ⟨e, ?_, ?_, done, left, hall, hdirectory, hvisited⟩
    · omega
    · intro g hg hg'
      exact hbenign g (by omega) hg'
  have hp' : p < 16 := by omega
  rw [if_pos (by omega)]
  have hsmaller : 512 - (s.off + 32) < 512 - s.off := by omega
  by_cases hinside : 16 * t + p < e
  · -- The entry belongs to a set that has been visited, or to the FAT.
    obtain ⟨hharmless, -⟩ := hbuf p (Nat.le_refl p) hp'
    obtain ⟨hne, hnofile⟩ := hharmless hinside
    rw [← hoff] at hne hnofile
    rw [if_neg hne, if_pos]
    · apply Prog.Yields.pure
      refine ⟨InSector.pass visit cookie₀ hp' hoff ⟨hinside, fun g hg => hbenign g (by omega), done,
        left, hall, hdirectory, hvisited⟩ fun q hq => hbuf q (by omega), hsmaller⟩
    · by_contra hfile
      rw [not_or, not_not, Nat.not_lt] at hfile
      exact hnofile hfile
  · obtain rfl : e = 16 * t + p := by omega
    obtain ⟨-, hentry⟩ := hbuf p (Nat.le_refl p) hp'
    have hentry := hentry (Nat.le_refl _)
    have htype : s.scratch.nat s.off = (v.dirEntry d.image first (16 * t + p)).nat 0 := by
      rw [hoff]
      exact congrArg UInt8.toNat (hentry 0 (by decide))
    have hsecond : s.scratch.nat (s.off + 1) = (v.dirEntry d.image first (16 * t + p)).nat 1 := by
      rw [hoff]
      exact congrArg UInt8.toNat (hentry 1 (by decide))
    rw [htype, hsecond]
    have hroom : 16 * t + p < m * v.sectorsPerCluster * 16 := by omega
    obtain ⟨rfl, hstop⟩ | ⟨hne, hne', hrest⟩ | ⟨count, left, rfl, hset, hin, hrest⟩ :=
      hdirectory.at_lt hroom
    · rw [if_pos hstop]
      apply Prog.Yields.pure
      refine ⟨rfl, ?_⟩
      rw [hall, List.append_nil]
      exact hvisited
    · rw [if_neg hne, if_pos (.inl hne')]
      apply Prog.Yields.pure
      refine ⟨InSector.pass visit cookie₀ hp' hoff
        ⟨Nat.le_refl _, fun g hg hg' => absurd hg' (by omega), done, left, hall, hrest, hvisited⟩
        fun q hq hq' => ?_, hsmaller⟩
      refine ⟨fun hlt => absurd hlt (by omega), fun hge => (hbuf q (by omega) hq').2 (by omega)⟩
    · have hfile : (v.dirEntry d.image first (16 * t + p)).nat 0 ≠ entEndOfDir := by
        rw [hset.file]
        decide
      have hcount : ¬ ((v.dirEntry d.image first (16 * t + p)).nat 0 ≠ entFile ∨
          (v.dirEntry d.image first (16 * t + p)).nat 1 < 2) := by
        rw [hset.count_eq]
        rintro (hne | hlt)
        · exact hne hset.file
        · exact absurd hset.two_le (Nat.not_le.2 hlt)
      rw [if_neg hfile, if_neg hcount, hset.count_eq]
      apply Prog.Yields.bind (entryRound_set hv hd hreach hdir stack visit cookie₀ hvisit hfree hp'
        hoff hbuf hset hin hrest hall hvisited)
      rintro ⟨ok, c⟩ ⟨s', hvisited', hoff', hs'⟩
      apply Prog.Yields.pure
      rw [hvisited']
      refine ⟨hs', ?_⟩
      dsimp only
      rw [hoff']
      exact hsmaller

theorem walkEntries_scans (ht : t < m * v.sectorsPerCluster) {scratch : Buf} {ret : Retcode}
    (hret : ret = .noError) (hscratch : Agree 512 scratch (v.dirSector d.image first t))
    (hscan : Scanned visit cookie₀ v d.image first m all (16 * t) e cookie) :
    Prog.Yields (walkEntries d.toDisk stack v visit
      (v.fileCluster d.image false first (t / v.sectorsPerCluster)) (t % v.sectorsPerCluster) cookie
      ret scratch) (SectorDone visit cookie₀ v d.image first m all t) := by
  rw [walkEntries, if_neg fun hne => hne hret]
  have hentry (q : Nat) (hq : q < 16) (j : Nat) (hj : j < 32) :
      scratch (32 * q + j) = v.dirEntry d.image first (16 * t + q) j := by
    rw [dirEntry_at v d.image hq j]
    exact hscratch _ (by omega)
  apply Prog.Yields.loop (InSector visit cookie₀ v d.image first m all t) (fun s => 512 - s.off)
  · intro s hs
    exact entryRound_scans hv hd hreach hdir stack visit cookie₀ hvisit hfree ht hs
  · refine ⟨0, e, by decide, rfl, hscan, fun q _ hq => ⟨fun hlt => ?_, fun _ => hentry q hq⟩⟩
    apply (hscan.benign (16 * t + q) (by omega) hlt).congr
    · exact hentry q hq 0 (by decide)
    · exact hentry q hq 1 (by decide)

/-- What the loop over the sectors of cluster `k` leaves. -/
def ClusterDone (v : Volume) (image : Nat → UInt8) (first m : Nat) (all : List (Nat × Nat))
    (k : Nat) : (χ × Buf) ⊕ WalkEnd χ → Prop
  | .inl x => ∃ e,
      Scanned visit cookie₀ v image first m all (16 * ((k + 1) * v.sectorsPerCluster)) e x.1
  | .inr e => e.ret = .noError ∧ Visited visit cookie₀ (v.dirEntry image first) all e.cookie

theorem sectors_scan (hk : k < m) (scratch : Buf)
    (hscan : Scanned visit cookie₀ v d.image first m all (16 * (k * v.sectorsPerCluster)) e
      cookie) :
    Prog.Yields (.loop (sectorRound d.toDisk stack v visit (v.fileCluster d.image false first k))
      (0, cookie, scratch)) (ClusterDone visit cookie₀ v d.image first m all k) := by
  apply Prog.Yields.loop
    (fun x => x.1 ≤ v.sectorsPerCluster ∧ ∃ e, Scanned visit cookie₀ v d.image first m all
      (16 * (k * v.sectorsPerCluster + x.1)) e x.2.1)
    (fun x => v.sectorsPerCluster - x.1)
  · rintro ⟨s, cookie, scratch⟩ ⟨hs, e, hscan⟩
    dsimp only at hs hscan
    rw [sectorRound]
    by_cases hmore : s < v.sectorsPerCluster
    · rw [if_pos hmore]
      have hdiv : (k * v.sectorsPerCluster + s) / v.sectorsPerCluster = k := by
        rw [Nat.add_comm, Nat.add_mul_div_right _ _ hv.sectors, Nat.div_eq_of_lt hmore,
          Nat.zero_add]
      have hmod : (k * v.sectorsPerCluster + s) % v.sectorsPerCluster = s := by
        rw [Nat.add_comm, Nat.add_mul_mod_self_right, Nat.mod_eq_of_lt hmore]
      have ht : k * v.sectorsPerCluster + s < m * v.sectorsPerCluster := by
        have hle : (k + 1) * v.sectorsPerCluster ≤ m * v.sectorsPerCluster :=
          Nat.mul_le_mul_right _ hk
        rw [Nat.succ_mul] at hle
        omega
      have hread := dirSector_reads hv hd hreach hdir (t := k * v.sectorsPerCluster + s)
        (by rw [hdiv]; exact hk) scratch
      rw [hdiv, hmod] at hread
      apply Prog.Yields.bind hread
      rintro ⟨ret, b⟩ ⟨hret, hb⟩
      have hwalk := walkEntries_scans hv hd hreach hdir stack visit cookie₀ hvisit hfree ht hret hb
        hscan
      rw [hdiv, hmod] at hwalk
      apply Prog.Yields.bind hwalk
      intro x hx
      apply Prog.Yields.pure
      cases x with
      | inl s' => exact ⟨⟨hmore, hx⟩, Nat.sub_succ_lt_self _ _ hmore⟩
      | inr e => exact hx
    · obtain rfl : s = v.sectorsPerCluster := by omega
      rw [if_neg hmore]
      apply Prog.Yields.pure
      refine ⟨e, ?_⟩
      have hend : (k + 1) * v.sectorsPerCluster = k * v.sectorsPerCluster + v.sectorsPerCluster :=
        Nat.succ_mul _ _
      rw [hend]
      exact hscan
  · exact ⟨Nat.zero_le _, e, hscan⟩

theorem exfatWalkDir_visits
    (hdirectory : Directory (v.dirEntry d.image first) (m * v.sectorsPerCluster * 16) 0 all)
    (scratch : Buf) :
    Prog.Yields (exfatWalkDir d.toDisk stack v visit first cookie₀ scratch) fun e =>
      e.ret = .noError ∧ Visited visit cookie₀ (v.dirEntry d.image first) all e.cookie := by
  apply Prog.Yields.loop
    (fun s => (s.guard < m ∧ s.cluster = v.fileCluster d.image false first s.guard ∧
      ∃ e, Scanned visit cookie₀ v d.image first m all (16 * (s.guard * v.sectorsPerCluster)) e
        s.cookie) ∨
      ¬ v.HasCluster s.cluster ∧ Visited visit cookie₀ (v.dirEntry d.image first) all s.cookie)
    (fun s => m - s.guard)
  · rintro s (⟨hguard, hcluster, e, hscan⟩ | ⟨hout, hvisited⟩)
    swap
    · rw [clusterRound, if_neg fun hmore => hout hmore.1]
      exact Prog.Yields.pure ⟨rfl, hvisited⟩
    obtain ⟨hlo, hhi⟩ := hdir.inside s.guard hguard
    have hclusters := hdir.clusters
    rw [← hcluster] at hlo hhi
    rw [clusterRound, if_pos ⟨(hv.hasCluster _).2 ⟨hlo, hhi⟩, by omega⟩, hcluster]
    apply Prog.Yields.bind (sectors_scan hv hd hreach hdir stack visit cookie₀ hvisit hfree hguard
      s.scratch hscan)
    intro x hx
    cases x with
    | inr e => exact Prog.Yields.pure hx
    | inl y =>
      obtain ⟨e', hscan'⟩ := hx
      rw [clusterNext]
      apply Prog.Yields.bind (fatSector_reads hv (hcluster ▸ hreach _ hguard) hd hlo hhi y.2)
      rintro ⟨cluster, b⟩ ⟨hnext, -⟩
      apply Prog.Yields.pure
      have hsucc : cluster = v.fileCluster d.image false first (s.guard + 1) := by
        rw [Volume.fileCluster, ← hcluster]
        exact hnext
      have hsmaller : m - (s.guard + 1) < m - s.guard := Nat.sub_succ_lt_self _ _ hguard
      by_cases hlast : s.guard + 1 = m
      · -- The scan has come to the end of the chain.
        obtain ⟨hle, -, done, left, hall, hrest, hvisited⟩ := hscan'
        rw [hlast, Nat.mul_comm 16] at hle
        obtain rfl := hrest.at_end hle
        rw [List.append_nil] at hall
        subst hall
        have hout := hdir.last
        rw [← hlast, ← hsucc] at hout
        split_ifs
        · exact ⟨rfl, hvisited⟩
        · exact ⟨.inr ⟨hout, hvisited⟩, hsmaller⟩
      · have hin := hdir.inside (s.guard + 1) (by omega)
        have hentry := (hreach (s.guard + 1) (by omega)).entry
        rw [← hsucc] at hin hentry
        rw [if_neg]
        · have hguard' : s.guard + 1 < m := by omega
          exact ⟨.inl ⟨hguard', hsucc, e', hscan'⟩, hsmaller⟩
        · rintro (hend | hlow)
          · rw [endOfChain] at hend
            omega
          · omega
  · refine .inl ⟨hdir.pos, rfl, 0, ?_, ?_, [], all, rfl, hdirectory, [], .nil, rfl⟩
    · rw [Nat.zero_mul, Nat.mul_zero]
    · exact fun g _ hg => absurd hg (Nat.not_lt_zero g)

end Round

end Directory

def countSets (_ : EntrySet) (n : Nat) : Int × Nat := (0, n + 1)

theorem Visited.count {entry : Nat → Buf} (h : Visited countSets 0 entry l n) : n = l.length := by
  obtain ⟨calls, hcalls, rfl⟩ := h
  have hlen := hcalls.length_eq
  rw [List.length_map] at hlen
  rw [← hlen]
  have hfold (k : Nat) : calls.foldl (fun c set => (countSets set c).2) k = k + calls.length := by
    clear hcalls hlen
    induction calls generalizing k with
    | nil => rfl
    | cons set calls ih =>
      rw [List.foldl_cons, ih, countSets, List.length_cons]
      omega
  rw [hfold, Nat.zero_add]

/-- A directory of one cluster with one file, whose name is `a`. -/
def oneFile : ImageDisk :=
  Disk.ofImage (written [be 12296 4 0xFFFFFFFF, be 16384 2 0x8502, be 16416 4 0xC0000001,
    be 16448 4 0xC1006100])

theorem oneFile_set : SetAt (smallVolume.dirEntry oneFile.image 2) 0 2 := by
  refine ⟨by decide +kernel, by decide +kernel, by decide, by decide +kernel, ?_, ?_⟩
  · have hlen : (smallVolume.dirEntry oneFile.image 2 1).nat 3 = 1 := by decide +kernel
    intro k hk
    rw [hlen] at hk
    obtain rfl : k = 0 := by omega
    exact ⟨by decide, by decide +kernel⟩
  · intro g hlo hhi
    obtain rfl | rfl : g = 1 ∨ g = 2 := by omega
    · exact ⟨by decide +kernel, by decide +kernel⟩
    · exact ⟨by decide +kernel, by decide +kernel⟩

/-- A directory of two clusters with two files, of which the first crosses from one cluster into the
other. The entries in front of it are deleted ones. -/
def crossing : ImageDisk :=
  Disk.ofImage fun i => if 16384 ≤ i ∧ i < 16800 then 5 else
    written [le 12296 4 3, be 12300 4 0xFFFFFFFF, be 16800 2 0x8503, be 16832 4 0xC0000010,
      be 16864 1 0xC1, be 16896 1 0xC1, be 16928 2 0x8502, be 16960 4 0xC0000001,
      be 16992 4 0xC1006200] i

theorem crossing_first : SetAt (smallVolume.dirEntry crossing.image 2) 13 3 := by
  refine ⟨by decide +kernel, by decide +kernel, by decide, by decide +kernel, ?_, ?_⟩
  · have hlen : (smallVolume.dirEntry crossing.image 2 14).nat 3 = 16 := by decide +kernel
    intro k hk
    rw [hlen] at hk
    obtain rfl | rfl : k = 0 ∨ k = 1 := by omega
    · exact ⟨by decide, by decide +kernel⟩
    · exact ⟨by decide, by decide +kernel⟩
  · intro g hlo hhi
    obtain rfl | rfl | rfl : g = 14 ∨ g = 15 ∨ g = 16 := by omega
    · exact ⟨by decide +kernel, by decide +kernel⟩
    · exact ⟨by decide +kernel, by decide +kernel⟩
    · exact ⟨by decide +kernel, by decide +kernel⟩

theorem crossing_second : SetAt (smallVolume.dirEntry crossing.image 2) 17 2 := by
  refine ⟨by decide +kernel, by decide +kernel, by decide, by decide +kernel, ?_, ?_⟩
  · have hlen : (smallVolume.dirEntry crossing.image 2 18).nat 3 = 1 := by decide +kernel
    intro k hk
    rw [hlen] at hk
    obtain rfl : k = 0 := by omega
    exact ⟨by decide, by decide +kernel⟩
  · intro g hlo hhi
    obtain rfl | rfl : g = 18 ∨ g = 19 := by omega
    · exact ⟨by decide +kernel, by decide +kernel⟩
    · exact ⟨by decide +kernel, by decide +kernel⟩

theorem crossing_deleted (h : Directory (smallVolume.dirEntry crossing.image 2) 32 13 l) :
    Directory (smallVolume.dirEntry crossing.image 2) 32 0 l := by
  have hdeleted (g : Nat) (hg : g < 13) :
      (smallVolume.dirEntry crossing.image 2 g).nat 0 = 5 := by
    have hdiv : g / 16 = 0 := by omega
    have hmod : g % 16 = g := by omega
    have hzero : 0 / smallVolume.sectorsPerCluster = 0 := by decide
    have hplace : smallVolume.sectorByte 2 (0 % smallVolume.sectorsPerCluster) = 16384 := by decide
    rw [Buf.nat, Volume.dirEntry, hdiv, hmod, Volume.dirSector, hzero, Volume.fileCluster, hplace]
    show (if 16384 ≤ 16384 + (32 * g + 0) ∧ 16384 + (32 * g + 0) < 16800 then (5 : UInt8)
      else _).toNat = 5
    rw [if_pos ⟨by omega, by omega⟩]
    rfl
  have hback (k : Nat) (hk : k ≤ 13) :
      Directory (smallVolume.dirEntry crossing.image 2) 32 (13 - k) l := by
    induction k with
    | zero => exact h
    | succ k ih =>
      have hdel := hdeleted (13 - (k + 1)) (by omega)
      refine .other (by omega) ?_ ?_ ?_
      · rw [hdel]
        decide
      · rw [hdel]
        decide
      · have hnext : 13 - (k + 1) + 1 = 13 - k := by omega
        rw [hnext]
        exact ih (by omega)
  exact hback 13 (Nat.le_refl 13)

theorem crossing_directory :
    Directory (smallVolume.dirEntry crossing.image 2) (2 * smallVolume.sectorsPerCluster * 16) 0
      [(13, 3), (17, 2)] := by
  have hstop : (smallVolume.dirEntry crossing.image 2 20).nat 0 = entEndOfDir := by decide +kernel
  apply crossing_deleted
  exact .set crossing_first (by decide) (.set crossing_second (by decide) (.stop (by decide) hstop))

theorem crossing_hasDir : smallVolume.HasDir crossing.image 2 2 := by
  refine ⟨by decide, by decide, fun k hk => ?_, by decide +kernel⟩
  obtain rfl | rfl : k = 0 ∨ k = 1 := by omega
  · exact ⟨by decide, by decide⟩
  · exact ⟨by decide +kernel, by decide +kernel⟩

theorem crossing_run : ((exfatWalkDir crossing.toDisk (fun _ => 0) smallVolume countSets 2 0
    fun _ => 0).run 40 Rdb.boot).map (·.1.cookie) = some 1 := by decide +kernel

end Exfat

end Pegasos2.Fs
