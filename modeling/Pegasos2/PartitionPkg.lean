import Pegasos2.AmigaRdb

namespace Pegasos2.Fs
open Program
set_option autoImplicit true

namespace PartitionPkg

open Rdb (blockSizeDefault maxPartitions magicRdsk magicPart Env env)

/-- `disk_read_at` has no codes of its own for a failed seek and a short read. -/
def abortCode : Fault → Retcode
  | .seek => .eAbort
  | .read => .eAbort
  | .device code => .device code

def diskReadAt (d : Disk) (byteOff len : Nat) (buf : Buf) : Io (Retcode × Buf) :=
  .access fun w =>
    (match d.read w.reads byteOff len with
      | .ok data => (.noError, buf.copy 0 data 0 len)
      | .fail fault left => (abortCode fault, left),
      { w with reads := w.reads + 1 })

def rdbChksumOk (blk : Buf) (longCount : Nat) : Bool := Rdb.rdbChecksumOk blk longCount

structure PartitionSelf where
  startByte : Nat
  sizeBytes : Nat
  blockSize : Nat
  nBlocks : Nat

/-- A partition package: its properties, and its `self`. -/
structure Package where
  name : List UInt8
  reg : Nat
  dosType : Nat
  bootPri : Int
  self : Option PartitionSelf

/-- Whether there is memory for the package of a partition and for its `self`. -/
structure Memory where
  package : Nat → Bool
  self : Nat → Bool

/-- The drive name as a C string, or a name for an anonymous partition. -/
def driveName (buf : Buf) (idx : Nat) : List UInt8 :=
  if buf.nat 36 = 0 then [0x44, 0x48, .ofNat (0x30 + idx % 10)]
  else ((List.range (min (buf.nat 36) 31)).map fun i => buf (37 + i)).takeWhile (· ≠ 0)

def partitionSelf (v : Env) (start size : Nat) : PartitionSelf :=
  let blockSize := if u32 (v.sizeBlock * 4) = 0 then 512 else u32 (v.sizeBlock * 4)
  ⟨start, size, blockSize, size / blockSize⟩

def package (mem : Memory) (buf : Buf) (idx start size : Nat) : Package where
  name := driveName buf idx
  reg := idx
  dosType := (env buf).dosType
  bootPri := Int.bmod (env buf).bootPri (2 ^ 32)
  self := if mem.self idx then some (partitionSelf (env buf) start size) else none

/-- The variables of `add_partitions_for_disk`, with the packages it has created. -/
structure Walk where
  blkno : Nat
  idx : Nat
  buf : Buf
  ret : Retcode
  packages : List Package

/-- The end of the list. -/
def Walk.AtEnd (s : Walk) : Prop := s.blkno = 0 ∨ s.blkno = 0xFFFFFFFF ∨ maxPartitions ≤ s.idx

instance (s : Walk) : Decidable s.AtEnd := inferInstanceAs (Decidable (_ ∨ _ ∨ _))

/-- A round of the list loop, with a partition block in `buf`. A bad environment ends the loop. -/
def visit (mem : Memory) (s : Walk) (buf : Buf) :
    Option (Nat × Nat) → Walk ⊕ (Retcode × List Package)
  | none => .inr (.noError, s.packages)
  | some (start, size) =>
    if mem.package s.idx then
      if mem.self s.idx then
        .inl ⟨be32 buf 16, s.idx + 1, buf, .noError,
          s.packages ++ [package mem buf s.idx start size]⟩
      else .inr (.eOutOfMemory, s.packages ++ [package mem buf s.idx start size])
    else .inr (.eOutOfMemory, s.packages)

/-- A round of the list loop after the read of the block. -/
def inspect (mem : Memory) (s : Walk) (ret : Retcode) (buf : Buf) :
    Walk ⊕ (Retcode × List Package) :=
  if ret ≠ .noError then .inr (ret, s.packages)
  else if be32 buf 0 ≠ magicPart then .inr (.noError, s.packages)
  else if rdbChksumOk buf (be32 buf 4) then visit mem s buf (env buf).range
  else .inr (.noError, s.packages)

def round (d : Disk) (mem : Memory) (s : Walk) : Io (Walk ⊕ (Retcode × List Package)) :=
  if s.AtEnd then pure (.inr (s.ret, s.packages))
  else do
    let (ret, buf) ← diskReadAt d (s.blkno * blockSizeDefault) blockSizeDefault s.buf
    pure (inspect mem s ret buf)

/-- The search for the RDB from block `b` on, `n` blocks being left. -/
def findRdbFrom (d : Disk) : Nat → Nat → Buf → Io (Except Retcode Nat × Buf)
  | 0, _, buf => pure (.error .eNoFilesys, buf)
  | n + 1, b, buf => do
    let (ret, buf) ← diskReadAt d (b * blockSizeDefault) blockSizeDefault buf
    if ret ≠ .noError then pure (.error ret, buf)
    else if be32 buf 0 = magicRdsk ∧ rdbChksumOk buf (be32 buf 4) then pure (.ok b, buf)
    else findRdbFrom d n (b + 1) buf

/-- `add_partitions_for_disk` after the second read of the RDB. -/
def afterReread (d : Disk) (mem : Memory) (ret : Retcode) (buf : Buf) :
    Io (Retcode × List Package) :=
  if ret ≠ .noError then pure (ret, [])
  else .loop (round d mem) ⟨be32 buf 28, 0, buf, .noError, []⟩

/-- `add_partitions_for_disk` after the search for the RDB. -/
def afterFind (d : Disk) (mem : Memory) : Except Retcode Nat → Buf → Io (Retcode × List Package)
  | .error ret, _ => pure (ret, [])
  | .ok b, buf => do
    let (ret, buf) ← diskReadAt d (b * blockSizeDefault) blockSizeDefault buf
    afterReread d mem ret buf

/-- The return code and the packages that have been created. `opened` is the result of
`open-dev`, and `buf` the array on the stack before its first use. -/
def addPartitionsForDisk (d : Disk) (mem : Memory) (opened : Except Retcode Unit) (buf : Buf) :
    Io (Retcode × List Package) :=
  match opened with
  | .error ret => pure (ret, [])
  | .ok () => do
    let (rdb, buf) ← findRdbFrom d 16 0 buf
    afterFind d mem rdb buf

/-- The first `n` bytes of two buffers are the same. -/
def Agree (n : Nat) (b c : Buf) : Prop := ∀ i < n, b i = c i

theorem Agree.be32 (h : Agree n b c) (hi : i + 4 ≤ n) : be32 b i = be32 c i :=
  be32_congr fun j hj => h (i + j) (by omega)

theorem Agree.copy (h : Agree n data data') (b c : Buf) :
    Agree n (b.copy 0 data 0 n) (c.copy 0 data' 0 n) := by
  intro i hi
  rw [← Nat.zero_add i, Buf.copy_inside b data hi, Buf.copy_inside c data' hi, Nat.zero_add]
  exact h i hi

theorem Agree.checksum (h : Agree n b c) (hm : m * 4 ≤ n) :
    Rdb.checksum b m = Rdb.checksum c m := by
  induction m with
  | zero => rfl
  | succ m ih => rw [Rdb.checksum, Rdb.checksum, ih (by omega), h.be32 (by omega)]

theorem Agree.rdbChecksumOk (h : Agree 512 b c) (m : Nat) :
    Rdb.rdbChecksumOk b m = Rdb.rdbChecksumOk c m := by
  rw [Rdb.rdbChecksumOk, Rdb.rdbChecksumOk]
  by_cases hm : m ≤ 128
  · rw [h.checksum (by omega)]
  · rw [decide_eq_false hm, Bool.and_false, Bool.false_and, Bool.false_and]

theorem Agree.env (h : Agree 512 b c) : env b = env c := by
  have hf (i : Nat) (hi : i ≤ 16) : Pegasos2.be32 b (128 + i * 4) = Pegasos2.be32 c (128 + i * 4) :=
    h.be32 (by omega)
  rw [Rdb.env, Rdb.env, hf 1 (by decide), hf 3 (by decide), hf 4 (by decide), hf 5 (by decide),
    hf 9 (by decide), hf 10 (by decide), hf 15 (by decide), hf 16 (by decide)]

theorem Agree.driveName (h : Agree 512 b c) (idx : Nat) : driveName b idx = driveName c idx := by
  have hlen : b.nat 36 = c.nat 36 := congrArg UInt8.toNat (h 36 (by decide))
  have hmap : ((List.range (min (c.nat 36) 31)).map fun i => b (37 + i)) =
      (List.range (min (c.nat 36) 31)).map fun i => c (37 + i) := by
    refine List.map_congr_left fun i hi => h (37 + i) ?_
    have hi := List.mem_range.1 hi
    omega
  rw [PartitionPkg.driveName, PartitionPkg.driveName, hlen, hmap]

/-- What reads of one disk return, reads of the other return too, at any time. -/
def SameBytes (d d' : Disk) : Prop :=
  ∀ time time' loc data, d.read time loc blockSizeDefault = .ok data →
    ∃ data', d'.read time' loc blockSizeDefault = .ok data' ∧ Agree blockSizeDefault data data'

theorem abortCode_ne (fault : Fault) : abortCode fault ≠ .noError := by
  cases fault <;> exact Retcode.noConfusion

theorem diskReadAt_halts (d : Disk) (loc size : Nat) (buf : Buf) (w : World) :
    (∃ data, d.read w.reads loc size = .ok data ∧
      Prog.Halts (diskReadAt d loc size buf) w (.noError, buf.copy 0 data 0 size)
        { w with reads := w.reads + 1 }) ∨
      ∃ fault left, d.read w.reads loc size = .fail fault left ∧
        Prog.Halts (diskReadAt d loc size buf) w (abortCode fault, left)
          { w with reads := w.reads + 1 } := by
  have hrun := Prog.Halts.access (fun w : World =>
    ((match d.read w.reads loc size with
      | .ok data => (Retcode.noError, buf.copy 0 data 0 size)
      | .fail fault left => (abortCode fault, left)), { w with reads := w.reads + 1 })) w
  cases h : d.read w.reads loc size with
  | ok data =>
    rw [h] at hrun
    exact .inl ⟨data, rfl, hrun⟩
  | fail fault left =>
    rw [h] at hrun
    exact .inr ⟨fault, left, rfl, hrun⟩

/-- A read that succeeds does so for `filesys_read_bytes` on the other disk. -/
theorem SameBytes.read (h : SameBytes d d') (hread : d.read time loc blockSizeDefault = .ok data)
    (b c : Buf) (w : World) :
    ∃ data', d'.read w.reads loc blockSizeDefault = .ok data' ∧
      Agree blockSizeDefault (b.copy 0 data 0 blockSizeDefault)
        (c.copy 0 data' 0 blockSizeDefault) ∧
      Prog.Halts (filesysReadBytes d' loc blockSizeDefault c) w
        (.noError, c.copy 0 data' 0 blockSizeDefault) { w with reads := w.reads + 1 } := by
  obtain ⟨data', hread', hagree⟩ := h time w.reads loc data hread
  refine ⟨data', hread', hagree.copy b c, ?_⟩
  obtain ⟨data'', hread'', hrun⟩ | ⟨fault, left, hfail, -⟩ :=
    filesysReadBytes_halts d' loc blockSizeDefault c w
  · obtain rfl := Outcome.ok.inj (hread'.symm.trans hread'')
    exact hrun
  · exact absurd (hread'.symm.trans hfail) Outcome.noConfusion

theorem findRdbFrom_agrees (h : SameBytes d d') (n b : Nat) (buf buf' : Buf) (w w' : World)
    (hb : b + n ≤ 16) :
    ∃ rdb buf₁ w₁, Prog.Halts (findRdbFrom d n b buf) w (rdb, buf₁) w₁ ∧
      ∀ k, rdb = .ok k → k < 16 ∧ ∃ buf₂ w₂,
        Prog.Halts (Rdb.findRdbFrom d' 0 n b buf') w' (some k, buf₂) w₂ := by
  induction n generalizing b buf buf' w w' with
  | zero => exact ⟨.error .eNoFilesys, buf, w, .pure _ _, fun k hk => by cases hk⟩
  | succ n ih =>
    obtain ⟨data, hdata, hread⟩ | ⟨fault, left, -, hread⟩ :=
      diskReadAt_halts d (b * blockSizeDefault) blockSizeDefault buf w
    · obtain ⟨data', -, hagree, hread'⟩ := h.read hdata buf buf' w'
      generalize buf.copy 0 data 0 blockSizeDefault = c at hread hagree
      generalize buf'.copy 0 data' 0 blockSizeDefault = c' at hread' hagree
      have hloc : u64 (0 + b * blockSizeDefault) = b * blockSizeDefault := by
        rw [u64, blockSizeDefault]
        omega
      have hmagic : be32 c 0 = be32 c' 0 := hagree.be32 (by decide)
      have hsum : rdbChksumOk c (be32 c 4) = Rdb.rdbChecksumOk c' (be32 c' 4) := by
        rw [rdbChksumOk, hagree.be32 (i := 4) (by decide)]
        exact hagree.rdbChecksumOk _
      rw [findRdbFrom, Rdb.findRdbFrom, hloc]
      simp only [hread.bind_iff, hread'.bind_iff]
      by_cases hrdb : be32 c' 0 = magicRdsk ∧ Rdb.rdbChecksumOk c' (be32 c' 4)
      · rw [if_neg fun hne => hne rfl, if_pos (by rw [hmagic, hsum]; exact hrdb),
          if_neg fun hne => hne rfl, if_pos hrdb]
        refine ⟨.ok b, c, _, .pure _ _, fun k hk => ?_⟩
        obtain rfl := Except.ok.inj hk
        exact ⟨by omega, c', _, .pure _ _⟩
      · rw [if_neg fun hne => hne rfl, if_neg (by rw [hmagic, hsum]; exact hrdb),
          if_neg fun hne => hne rfl, if_neg hrdb]
        exact ih (b + 1) c c' _ _ (by omega)
    · rw [findRdbFrom]
      simp only [hread.bind_iff]
      rw [if_pos (abortCode_ne fault)]
      exact ⟨.error (abortCode fault), left, _, .pure _ _, fun k hk => by cases hk⟩

/-- A package is about the partition `idx`, whose block is in `buf`. -/
structure Describes (idx : Nat) (buf : Buf) (start size : Nat) (p : Package) : Prop where
  reg : p.reg = idx
  name : p.name = driveName buf idx
  dosType : p.dosType = (env buf).dosType
  bootPri : p.bootPri = Int.bmod (env buf).bootPri (2 ^ 32)
  range : Rdb.decodePartitionRange buf = some (start, size)
  self : ∀ s, p.self = some s → s.startByte = start ∧ s.sizeBytes = size

theorem package_describes (mem : Memory) (h : Agree 512 buf buf')
    (hrange : (env buf).range = some (start, size)) :
    Describes idx buf' start size (package mem buf idx start size) := by
  have hself (s : PartitionSelf) (hs : (package mem buf idx start size).self = some s) :
      s.startByte = start ∧ s.sizeBytes = size := by
    rw [package] at hs
    simp only at hs
    split at hs
    · obtain rfl := Option.some.inj hs
      exact ⟨rfl, rfl⟩
    · cases hs
  refine ⟨rfl, h.driveName idx, ?_, ?_, ?_, hself⟩
  · rw [package, h.env]
  · rw [package, h.env]
  · rw [Rdb.decodePartitionRange, ← h.env, hrange]

/-- The packages created from a position on are about the partitions from there on. -/
def Follows (d' : Disk) (x : Rdb.Pos × World) (l : List Package) : Prop :=
  ∀ i (h : i < l.length), ∃ buf w start size,
    Rdb.partition d' 0 x i = some (buf, w) ∧ Describes (x.1.idx + i) buf start size (l.get ⟨i, h⟩)

theorem Follows.nil (d' : Disk) (x : Rdb.Pos × World) : Follows d' x [] :=
  fun i h => absurd h (Nat.not_lt_zero i)

theorem Follows.cons {x : Rdb.Pos × World} (hread : Rdb.readBlock d' 0 x.1 x.2 = some (buf, w))
    (hp : Describes x.1.idx buf start size p) (hl : Follows d' (x.1.next buf, w) l) :
    Follows d' x (p :: l) := by
  intro i h
  cases i with
  | zero => exact ⟨buf, w, start, size, hread, hp⟩
  | succ i =>
    obtain ⟨buf₂, w₂, start₂, size₂, hpart, hdesc⟩ := hl i (Nat.lt_of_succ_lt_succ h)
    refine ⟨buf₂, w₂, start₂, size₂, ?_, ?_⟩
    · rw [Rdb.partition_succ (Rdb.nextBlock_eq hread)]
      exact hpart
    · have hidx : x.1.idx + (i + 1) = (x.1.next buf).idx + i := by
        simp only [Rdb.Pos.next]
        omega
      rw [hidx]
      exact hdesc

/-- The block of a round that goes on is the block of `amiga_rdb` at the same position. -/
theorem readBlock_agrees (h : SameBytes d d') (hend : ¬ p.AtEnd)
    (hblk : p.blkno < 2 ^ 32)
    (hread : d.read time (p.blkno * blockSizeDefault) blockSizeDefault = .ok data) (b : Buf)
    (hmagic : be32 (b.copy 0 data 0 blockSizeDefault) 0 = magicPart) (w : World) :
    ∃ buf', Rdb.readBlock d' 0 p w = some (buf', { w with reads := w.reads + 1 }) ∧
      Agree 512 (b.copy 0 data 0 blockSizeDefault) buf' := by
  obtain ⟨data', hread', hagree, -⟩ := h.read hread b p.buf w
  have hloc : u64 (0 + p.blkno * blockSizeDefault) = p.blkno * blockSizeDefault := by
    rw [u64, blockSizeDefault]
    omega
  refine ⟨p.buf.copy 0 data' 0 blockSizeDefault, ?_, hagree⟩
  rw [Rdb.readBlock, if_neg hend, hloc, hread']
  simp only
  rw [if_pos (by rw [← hagree.be32 (i := 0) (by decide)]; exact hmagic)]

/-- A round ends the walk, or creates the package of the partition in `buf`. -/
theorem inspect_cases (mem : Memory) (s : Walk) (buf : Buf) :
    (∃ ret, inspect mem s .noError buf = .inr (ret, s.packages)) ∨
      be32 buf 0 = magicPart ∧ ∃ start size, (env buf).range = some (start, size) ∧
        (inspect mem s .noError buf = .inl ⟨be32 buf 16, s.idx + 1, buf, .noError,
            s.packages ++ [package mem buf s.idx start size]⟩ ∨
          inspect mem s .noError buf =
            .inr (.eOutOfMemory, s.packages ++ [package mem buf s.idx start size])) := by
  rw [inspect, if_neg fun hne => hne rfl]
  by_cases hmagic : be32 buf 0 = magicPart
  · rw [if_neg fun hne => hne hmagic]
    by_cases hsum : rdbChksumOk buf (be32 buf 4)
    · rw [if_pos hsum]
      cases hrange : (env buf).range with
      | none => exact .inl ⟨.noError, rfl⟩
      | some range =>
        rw [visit]
        by_cases hpkg : mem.package s.idx
        · rw [if_pos hpkg]
          refine .inr ⟨hmagic, range.1, range.2, rfl, ?_⟩
          by_cases hself : mem.self s.idx
          · rw [if_pos hself]
            exact .inl rfl
          · rw [if_neg hself]
            exact .inr rfl
        · rw [if_neg hpkg]
          exact .inl ⟨.eOutOfMemory, rfl⟩
    · rw [if_neg hsum]
      exact .inl ⟨.noError, rfl⟩
  · rw [if_pos hmagic]
    exact .inl ⟨.noError, rfl⟩

theorem round_end (d : Disk) (mem : Memory) {s : Walk} (h : s.AtEnd) (w : World) :
    Prog.Halts (round d mem s) w (.inr (s.ret, s.packages)) w := by
  rw [round, if_pos h]
  exact .pure _ _

/-- A package made from some partition block with a good environment. -/
def Made (mem : Memory) (p : Package) : Prop :=
  ∃ buf idx start size, (env buf).range = some (start, size) ∧ p = package mem buf idx start size

theorem round_returns (d : Disk) (mem : Memory) (s : Walk) (w : World)
    (h : ∀ p ∈ s.packages, Made mem p) :
    Prog.Returns (round d mem s) w (Prog.Returns.Round (fun s _ => ∀ p ∈ s.packages, Made mem p)
      (fun s => maxPartitions - s.idx) (maxPartitions - s.idx) fun x _ =>
        ∀ p ∈ x.2, Made mem p) := by
  by_cases hend : s.AtEnd
  · exact ⟨_, _, round_end d mem hend w, h⟩
  · have hlt : s.idx < maxPartitions := Nat.not_le.1 fun hle => hend (.inr (.inr hle))
    rw [round, if_neg hend]
    obtain ⟨data, -, hread⟩ | ⟨fault, left, -, hread⟩ :=
      diskReadAt_halts d (s.blkno * blockSizeDefault) blockSizeDefault s.buf w
    · refine ⟨_, _, hread.bind (.pure _ _), ?_⟩
      generalize s.buf.copy 0 data 0 blockSizeDefault = buf
      obtain ⟨ret, hinspect⟩ | ⟨-, start, size, hrange, hinspect⟩ := inspect_cases mem s buf
      · rw [hinspect]
        exact h
      · have hmade : ∀ p ∈ s.packages ++ [package mem buf s.idx start size], Made mem p := by
          intro p hp
          obtain hp | hp := List.mem_append.1 hp
          · exact h p hp
          · exact ⟨buf, s.idx, start, size, hrange, List.mem_singleton.1 hp⟩
        obtain hinspect | hinspect := hinspect
        · rw [hinspect]
          exact ⟨hmade, Nat.sub_lt_sub_left hlt (Nat.lt_succ_self _)⟩
        · rw [hinspect]
          exact hmade
    · refine ⟨_, _, hread.bind (.pure _ _), ?_⟩
      rw [inspect, if_pos (abortCode_ne fault)]
      exact h

theorem findRdbFrom_ends (d : Disk) (n b : Nat) (buf : Buf) (w : World) :
    Prog.Ends (findRdbFrom d n b buf) w := by
  induction n generalizing b buf w with
  | zero => exact .pure _ _
  | succ n ih =>
    rw [findRdbFrom]
    obtain ⟨data, -, hread⟩ | ⟨fault, left, -, hread⟩ :=
      diskReadAt_halts d (b * blockSizeDefault) blockSizeDefault buf w
    · refine hread.bind_ends ?_
      simp only
      rw [if_neg fun hne => hne rfl]
      split
      · exact .pure _ _
      · exact ih _ _ _
    · refine hread.bind_ends ?_
      simp only
      rw [if_pos (abortCode_ne fault)]
      exact .pure _ _

/-- The walk ends on every disk, and each of its packages is made from a partition block. -/
theorem addPartitionsForDisk_returns (d : Disk) (mem : Memory) (opened : Except Retcode Unit)
    (buf : Buf) (w : World) :
    Prog.Returns (addPartitionsForDisk d mem opened buf) w fun x _ => ∀ p ∈ x.2, Made mem p := by
  have hnone (ret : Retcode) (w : World) : Prog.Returns (pure (ret, []) : Io (Retcode ×
      List Package)) w fun x _ => ∀ p ∈ x.2, Made mem p :=
    .pure fun p hp => absurd hp List.not_mem_nil
  cases opened with
  | error ret => exact hnone ret w
  | ok =>
    obtain ⟨⟨rdb, buf₁⟩, w₁, hfind⟩ := findRdbFrom_ends d 16 0 buf w
    refine .after hfind ?_
    cases rdb with
    | error ret => exact hnone ret w₁
    | ok b =>
      simp only
      rw [afterFind]
      obtain ⟨data, -, hread⟩ | ⟨fault, left, -, hread⟩ :=
        diskReadAt_halts d (b * blockSizeDefault) blockSizeDefault buf₁ w₁
      · refine .after hread ?_
        simp only
        rw [afterReread, if_neg fun hne => hne rfl]
        exact .loop (fun s _ => ∀ p ∈ s.packages, Made mem p) (fun s => maxPartitions - s.idx)
          (fun s w h => round_returns d mem s w h) fun p hp => absurd hp List.not_mem_nil
      · refine .after hread ?_
        simp only
        rw [afterReread, if_pos (abortCode_ne fault)]
        exact hnone _ _

/-- The walk creates packages for partitions of the chain of `amiga_rdb`, in its order. -/
theorem loop_follows (h : SameBytes d d') (mem : Memory) (s : Walk) (p : Rdb.Pos) (w w' : World)
    (hblkno : s.blkno = p.blkno) (hidx : s.idx = p.idx) (hblk : p.blkno < 2 ^ 32) :
    ∃ ret l w₁, Prog.Halts (.loop (round d mem) s) w (ret, s.packages ++ l) w₁ ∧
      Follows d' (p, w') l := by
  -- A round that ends the walk without a package.
  have hstop {s : Walk} {p : Rdb.Pos} {w w' w₁ : World} {ret : Retcode}
      (hround : Prog.Halts (round d mem s) w (.inr (ret, s.packages)) w₁) :
      ∃ ret l w₁, Prog.Halts (.loop (round d mem) s) w (ret, s.packages ++ l) w₁ ∧
        Follows d' (p, w') l := by
    refine ⟨ret, [], w₁, ?_, .nil d' _⟩
    rw [List.append_nil]
    exact hround.loop_done
  generalize hm : maxPartitions - s.idx = m
  induction m generalizing s p w w' with
  | zero => exact hstop (round_end d mem (.inr (.inr (by omega))) w)
  | succ m ih =>
    by_cases hend : s.AtEnd
    · exact hstop (round_end d mem hend w)
    · have hend' : ¬ p.AtEnd := by
        rw [Walk.AtEnd, hblkno, hidx] at hend
        exact hend
      obtain ⟨data, hdata, hread⟩ | ⟨fault, left, -, hread⟩ :=
        diskReadAt_halts d (s.blkno * blockSizeDefault) blockSizeDefault s.buf w
      · have hround : Prog.Halts (round d mem s) w
            (inspect mem s .noError (s.buf.copy 0 data 0 blockSizeDefault))
            { w with reads := w.reads + 1 } := by
          rw [round, if_neg hend]
          exact hread.bind (.pure _ _)
        rw [hblkno] at hdata
        have hblock := readBlock_agrees h hend' hblk hdata s.buf
        generalize s.buf.copy 0 data 0 blockSizeDefault = buf at hround hblock
        obtain ⟨ret, hinspect⟩ | ⟨hmagic, start, size, hrange, hinspect⟩ :=
          inspect_cases mem s buf
        · rw [hinspect] at hround
          exact hstop hround
        · obtain ⟨buf', hblock, hagree⟩ := hblock hmagic w'
          have hdesc : Describes p.idx buf' start size (package mem buf s.idx start size) :=
            hidx ▸ package_describes mem hagree hrange
          obtain hinspect | hinspect := hinspect
          · rw [hinspect] at hround
            obtain ⟨ret, l, w₁, hloop, hl⟩ := ih ⟨be32 buf 16, s.idx + 1, buf, .noError,
              s.packages ++ [package mem buf s.idx start size]⟩ (p.next buf')
              { w with reads := w.reads + 1 } { w' with reads := w'.reads + 1 }
              (hagree.be32 (i := 16) (by decide)) (congrArg (· + 1) hidx) (be32_lt buf' 16)
              (by simp only; omega)
            refine ⟨ret, package mem buf s.idx start size :: l, w₁, ?_, .cons hblock hdesc hl⟩
            rw [List.append_cons]
            exact hround.loop_next hloop
          · rw [hinspect] at hround
            exact ⟨.eOutOfMemory, [package mem buf s.idx start size], _, hround.loop_done,
              .cons hblock hdesc (.nil d' _)⟩
      · have hround : Prog.Halts (round d mem s) w (.inr (abortCode fault, s.packages))
            { w with reads := w.reads + 1 } := by
          rw [round, if_neg hend]
          refine hread.bind ?_
          simp only
          rw [inspect, if_pos (abortCode_ne fault)]
          exact .pure _ _
        exact hstop hround

/-- The packages of a walk are none, or about the first partitions of the chain that `amiga_rdb`
finds. -/
theorem addPartitionsForDisk_follows (h : SameBytes d d') (mem : Memory)
    (opened : Except Retcode Unit) (buf : Buf) (w w' : World) (q : Call) (hloc : q.loc = 0)
    (hsize : blockSizeDefault ≤ q.size) :
    ∃ ret l w₁, Prog.Halts (addPartitionsForDisk d mem opened buf) w (ret, l) w₁ ∧
      (l = [] ∨ ∃ buf₀ w₀, Rdb.Opened d' q w' buf₀ w₀ ∧ Follows d' (Rdb.first buf₀, w₀) l) := by
  cases opened with
  | error ret => exact ⟨ret, [], w, .pure _ _, .inl rfl⟩
  | ok =>
    obtain ⟨rdb, buf₁, w₁, hfind, hagrees⟩ :=
      findRdbFrom_agrees h 16 0 buf q.buf w { w' with hint := ⟨0, 0⟩ } (by decide)
    simp only [addPartitionsForDisk, hfind.bind_iff]
    cases rdb with
    | error ret => exact ⟨ret, [], w₁, .pure _ _, .inl rfl⟩
    | ok b =>
      obtain ⟨hb, buf₂, w₂, hfind'⟩ := hagrees b rfl
      rw [afterFind]
      obtain ⟨data, hdata, hread⟩ | ⟨fault, left, -, hread⟩ :=
        diskReadAt_halts d (b * blockSizeDefault) blockSizeDefault buf₁ w₁
      · simp only [hread.bind_iff]
        rw [afterReread, if_neg fun hne => hne rfl]
        obtain ⟨data', -, hagree, hread'⟩ := h.read hdata buf₁ buf₂ w₂
        generalize buf₁.copy 0 data 0 blockSizeDefault = c at hread hagree
        generalize buf₂.copy 0 data' 0 blockSizeDefault = c' at hread' hagree
        have hlist : be32 c 28 = be32 c' 28 := hagree.be32 (by decide)
        obtain ⟨ret, l, w₃, hloop, hl⟩ := loop_follows h mem ⟨be32 c 28, 0, c, .noError, []⟩
          (Rdb.first c') { w₁ with reads := w₁.reads + 1 } { w₂ with reads := w₂.reads + 1 }
          hlist rfl (be32_lt c' 28)
        refine ⟨ret, l, w₃, hloop, ?_⟩
        by_cases hend : be32 c' 28 = 0 ∨ be32 c' 28 = 0xFFFFFFFF
        · left
          have hdone := (round_end d mem (s := ⟨be32 c 28, 0, c, .noError, []⟩)
            (by rw [Walk.AtEnd, hlist]; exact hend.imp_right .inl)
            { w₁ with reads := w₁.reads + 1 }).loop_done
          exact (Prod.mk.injEq _ _ _ _ ▸ (hloop.unique hdone).1).2
        · right
          have hat : u64 (q.loc + b * blockSizeDefault) = b * blockSizeDefault := by
            rw [u64, blockSizeDefault, hloc]
            omega
          have hfind'' : Prog.Halts (Rdb.findRdb d' q.loc q.buf) { w' with hint := ⟨0, 0⟩ }
              (some b, buf₂) w₂ := by
            rw [Rdb.findRdb, hloc]
            exact hfind'
          rw [← hat] at hread'
          exact ⟨c', _, ⟨hsize, ⟨b, buf₂, w₂, hfind'', hread'⟩, hend⟩, hl⟩
      · simp only [hread.bind_iff]
        rw [afterReread, if_pos (abortCode_ne fault)]
        exact ⟨abortCode fault, [], _, .pure _ _, .inl rfl⟩

/-- `amiga_rdb` does nothing but call `file_system` for the partition that the package `p` is
about, with that partition's size as the hint. -/
def Recurses (d' : Disk) (fs : Call → Io Reply) (q : Call) (w : World) (p : Package) : Prop :=
  ∃ buf w₁ start size, Describes p.reg buf start size p ∧
    (Rdb.slice q (Rdb.selectPartition q.path).2 buf start).loc = start ∧
    ∀ r w', Prog.Halts (Rdb.amigaRdb d' fs q) w r w' ↔
      ∃ r', Prog.Halts (fs (Rdb.slice q (Rdb.selectPartition q.path).2 buf start))
        (Rdb.hinted w₁ (u64 (q.loc + start)) buf size) r' w' ∧ r = Rdb.relabel r'

theorem start_lt (h : Rdb.decodePartitionRange buf = some (start, size)) : start < 2 ^ 64 := by
  rw [Rdb.decodePartitionRange, Env.range] at h
  split at h
  · cases h
  · obtain ⟨rfl, -⟩ := Prod.mk.injEq _ _ _ _ ▸ Option.some.inj h
    exact Nat.mod_lt _ (Nat.two_pow_pos 64)

theorem Follows.recurses (fs : Call → Io Reply) {q : Call} (hloc : q.loc = 0)
    (hwhat : q.what ≠ .probe) (hop : Rdb.Opened d' q w buf₀ w₀)
    (hl : Follows d' (Rdb.first buf₀, w₀) l) (hi : i < l.length)
    (hsel : (Rdb.selectPartition q.path).1 = i) : Recurses d' fs q w (l.get ⟨i, hi⟩) := by
  obtain ⟨buf, w₁, start, size, hpart, hdesc⟩ := hl i hi
  have hidx : (Rdb.first buf₀).idx + i = i := Nat.zero_add i
  rw [hidx] at hdesc
  have hrun : ∀ r w', Prog.Halts (Rdb.amigaRdb d' fs q) w r w' ↔
      Prog.Halts (.loop (Rdb.round d' fs q (Rdb.selectPartition q.path).1
        (Rdb.selectPartition q.path).2) (Rdb.first buf₀)) w₀ r w' := by
    obtain ⟨buf', w₀', hop', hrun⟩ | ⟨hno, -⟩ := Rdb.amigaRdb_opens d' fs q hwhat w
    · obtain ⟨rfl, rfl⟩ := hop.unique hop'
      exact hrun
    · exact absurd hop (hno buf₀ w₀)
  have hentered (hnone : Rdb.NoneEntered d' q (Rdb.selectPartition q.path).1
      (Rdb.first buf₀, w₀)) : False := by
    refine hnone i buf w₁ (hloc ▸ hpart) ⟨?_, ?_, ?_⟩
    · rw [hdesc.range]
      exact Option.some_ne_none _
    · rw [hsel]
      simp [Rdb.first]
    · cases hw : q.what with
      | probe => exact absurd hw hwhat
      | list => exact .inl rfl
      | load => exact .inr rfl
  cases Rdb.walkEnd d' fs q (Rdb.selectPartition q.path).1 (Rdb.selectPartition q.path).2
    (Rdb.first buf₀, w₀) with
  | atEnd _ _ _ hnone _ => exact (hentered hnone).elim
  | broken _ _ _ hnone _ _ _ => exact (hentered hnone).elim
  | @entered n buf' w₂ start' size' hpart' hrange' hn _ hloop =>
    obtain rfl : i = n := by
      rw [hsel] at hn
      exact Int.ofNat.inj (by simpa [Rdb.first] using hn)
    rw [hloc] at hpart'
    obtain ⟨rfl, rfl⟩ := Prod.mk.injEq _ _ _ _ ▸ Option.some.inj (hpart.symm.trans hpart')
    obtain ⟨rfl, rfl⟩ :=
      Prod.mk.injEq _ _ _ _ ▸ Option.some.inj (hdesc.range.symm.trans hrange')
    refine ⟨buf, w₁, start, size, hdesc.reg.symm ▸ hdesc, ?_, fun r w' =>
      (hrun r w').trans (hloop r w')⟩
    rw [Rdb.slice, hloc, u64, Nat.zero_add]
    exact Nat.mod_eq_of_lt (start_lt hdesc.range)

/-- The path that `boot hd:n file` hands to the file systems. -/
def bootPath (n : Nat) (file : List Char) : List Char := Nat.toDigits 10 n ++ ',' :: file

theorem takeDigits_digitChar (a : Nat) (hn : n < 10) (ha : a * 10 + n < 2 ^ 31) (l : List Char) :
    Rdb.takeDigits a (n.digitChar :: l) = Rdb.takeDigits ((a * 10 + n : Nat) : Int) l := by
  have hchar : n.digitChar.toNat = 48 + n := Nat.toNat_digitChar_of_lt_ten hn
  have hdigit : Rdb.isDigit n.digitChar = true := by
    have h0 : '0' ≤ n.digitChar := by
      show 48 ≤ n.digitChar.toNat
      omega
    have h9 : n.digitChar ≤ '9' := by
      show n.digitChar.toNat ≤ 57
      omega
    rw [Rdb.isDigit, decide_eq_true h0, decide_eq_true h9, Bool.and_self]
  have hval : (a : Int) * 10 + (n.digitChar.toNat - '0'.toNat) = ((a * 10 + n : Nat) : Int) := by
    rw [hchar]
    push_cast
    have h48 : '0'.toNat = 48 := rfl
    omega
  rw [Rdb.takeDigits, if_pos hdigit, hval, Int.bmod_eq_of_le (by omega) (by omega)]

theorem takeDigits_toDigits (n : Nat) (h : n < 2 ^ 31) (l : List Char) :
    Rdb.takeDigits 0 (Nat.toDigits 10 n ++ l) = Rdb.takeDigits n l := by
  induction n using Nat.strongRecOn generalizing l with
  | ind n ih =>
    by_cases hn : n < 10
    · rw [Nat.toDigits_of_lt_base hn]
      have hstep := takeDigits_digitChar 0 hn (by omega) l
      rw [Nat.zero_mul, Nat.zero_add] at hstep
      exact hstep
    · rw [Nat.toDigits_of_base_le (by decide) (by omega), List.append_assoc,
        ih (n / 10) (by omega) (by omega)]
      have hdiv : n / 10 * 10 + n % 10 = n := by omega
      have hstep := takeDigits_digitChar (n / 10) (Nat.mod_lt n (by decide)) (by omega) l
      rw [hdiv] at hstep
      exact hstep

theorem selectPartition_bootPath (h : n < 2 ^ 31) (file : List Char) :
    Rdb.selectPartition (bootPath n file) = ((n : Int), file) := by
  have hcomma : Rdb.takeDigits n (',' :: file) = ((n : Int), ',' :: file) := by
    rw [Rdb.takeDigits, if_neg (by decide)]
  have htake := (takeDigits_toDigits n h (',' :: file)).trans hcomma
  have hdigit (c : Char) (hc : c ∈ Nat.toDigits 10 n) : Rdb.isDigit c = true :=
    Nat.isDigit_of_mem_toDigits (by decide) (by decide) hc
  rw [bootPath]
  cases hl : Nat.toDigits 10 n with
  | nil => exact absurd hl Nat.toDigits_ne_nil
  | cons c l =>
    rw [hl] at htake hdigit
    rw [List.cons_append] at htake ⊢
    rw [Rdb.selectPartition, if_pos (hdigit c List.mem_cons_self), htake]
    rfl

/-- The packages are the first partitions of the chain that `amiga_rdb` walks; the path of each
leads `amiga_rdb` to its partition. -/
theorem addPartitionsForDisk_agrees (h : SameBytes d d') (mem : Memory)
    (opened : Except Retcode Unit) (buf : Buf) (w : World) :
    ∃ ret l w₁, Prog.Halts (addPartitionsForDisk d mem opened buf) w (ret, l) w₁ ∧
      (∀ i (hi : i < l.length), (l.get ⟨i, hi⟩).reg = i) ∧
      (∀ p ∈ l, ∀ file, Rdb.selectPartition (bootPath p.reg file) = ((p.reg : Int), file)) ∧
      ∀ q w', q.loc = 0 → blockSizeDefault ≤ q.size →
        (∀ buf₀ w₀ m x, Rdb.Opened d' q w' buf₀ w₀ →
          Rdb.chain d' 0 (Rdb.first buf₀, w₀) m = some x →
          Rdb.readBlock d' 0 x.1 x.2 = none → l.length ≤ m) ∧
        ∀ fs, ∀ p ∈ l, q.what ≠ .probe → (Rdb.selectPartition q.path).1 = p.reg →
          Recurses d' fs q w' p := by
  obtain ⟨ret, l, w₁, hrun, hl⟩ := addPartitionsForDisk_follows h mem opened buf w w
    ⟨.load, [], 0, 0, buf, blockSizeDefault, buf, [], 0⟩ rfl (Nat.le_refl _)
  have hreg (i : Nat) (hi : i < l.length) : (l.get ⟨i, hi⟩).reg = i ∧ i < maxPartitions := by
    obtain rfl | ⟨buf₀, w₀, -, hl⟩ := hl
    · exact absurd hi (Nat.not_lt_zero i)
    · obtain ⟨buf, w, start, size, hpart, hdesc⟩ := hl i hi
      have hlt := Rdb.idx_lt_of_partition hpart
      simp only [Rdb.first, Nat.zero_add] at hlt hdesc
      exact ⟨hdesc.reg, hlt⟩
  refine ⟨ret, l, w₁, hrun, fun i hi => (hreg i hi).1, fun p hp file => ?_,
    fun q w' hloc hsize => ?_⟩
  · obtain ⟨⟨i, hi⟩, rfl⟩ := List.get_of_mem hp
    obtain ⟨heq, hlt⟩ := hreg i hi
    rw [maxPartitions] at hlt
    exact selectPartition_bootPath (by omega) file
  · obtain ⟨ret', l', w₂, hrun', hl'⟩ :=
      addPartitionsForDisk_follows h mem opened buf w w' q hloc hsize
    obtain ⟨-, rfl⟩ := Prod.mk.injEq _ _ _ _ ▸ (hrun.unique hrun').1
    obtain rfl | ⟨buf₀, w₀, hop, hfollows⟩ := hl'
    · exact ⟨fun _ _ m _ _ _ _ => Nat.zero_le m, fun _ p hp => absurd hp List.not_mem_nil⟩
    · refine ⟨fun buf₁ w₁ m x hop' hchain hstop => ?_, fun fs p hp hwhat hsel => ?_⟩
      · obtain ⟨rfl, rfl⟩ := hop.unique hop'
        by_contra hlt
        obtain ⟨buf, w, start, size, hpart, -⟩ := hfollows m (Nat.not_le.1 hlt)
        exact absurd (Rdb.lt_of_partition hchain hstop hpart) (Nat.lt_irrefl m)
      · obtain ⟨⟨i, hi⟩, rfl⟩ := List.get_of_mem hp
        rw [(hreg i hi).1] at hsel
        exact hfollows.recurses fs hloc hwhat hop hi hsel

/-- A disk with an RDB in block 0 and the partition `DH0` of cylinders 2 to 9, described in
block 1. -/
def singleWord : Nat → Nat
  | 0 => magicRdsk
  | 1 => 64
  | 2 => 0xADBBAC74
  | 7 => 1
  | 128 => magicPart
  | 129 => 64
  | 130 => 0x682B118F
  | 132 => 0xFFFFFFFF
  | 137 => 0x03444830
  | 161 => 128
  | 163 => 1
  | 164 => 1
  | 165 => 32
  | 169 => 2
  | 170 => 9
  | 176 => 0x444F5301
  | _ => 0

def single : Disk :=
  (Disk.ofImage fun i => .ofNat (singleWord (i / 4) / 256 ^ (3 - i % 4))).toDisk

def plenty : Memory := ⟨fun _ => true, fun _ => true⟩

def bootDh0 : Call :=
  ⟨.load, bootPath 0 "test.elf".toList, 0, 0, fun _ => 0, 512, fun _ => 0, [], 0⟩

def firstWorld : World := ⟨0, ⟨0, 0⟩, 0, [], []⟩

theorem single_sameBytes : SameBytes single single :=
  fun _ _ _ data h => ⟨data, h, fun _ _ => rfl⟩

theorem single_packages :
    ((addPartitionsForDisk single plenty (.ok ()) fun _ => 0).run 3 firstWorld).map
      (fun x => x.1.2.map fun p => (p.reg, p.self.map (·.startByte))) =
        some [(0, some 32768)] := by decide +kernel

theorem addPartitionsForDisk_agrees_single :
    SameBytes single single ∧ ∃ p : Package, p.reg = 0 ∧
      p.self.map (·.startByte) = some 32768 ∧
      Recurses single (fun q => pure (q.reply .rEnd)) bootDh0 firstWorld p := by
  obtain ⟨ret, l, w₁, hrun, -, -, hq⟩ :=
    addPartitionsForDisk_agrees single_sameBytes plenty (.ok ()) (fun _ => 0) firstWorld
  obtain ⟨⟨x, w₂⟩, hrun', hx⟩ := Option.map_eq_some_iff.1 single_packages
  obtain ⟨rfl, -⟩ := hrun.unique ⟨3, hrun'⟩
  obtain ⟨p, hp, hmap⟩ := List.map_eq_singleton_iff.1 hx
  obtain ⟨hreg, hstart⟩ := Prod.mk.injEq _ _ _ _ ▸ hmap
  have hl : l = [p] := hp
  have hmem : p ∈ l := by
    rw [hl]
    exact List.mem_singleton_self p
  refine ⟨single_sameBytes, p, hreg, hstart,
    (hq bootDh0 firstWorld rfl (Nat.le_refl _)).2 _ p hmem Action.noConfusion ?_⟩
  rw [hreg]
  decide

end PartitionPkg

end Pegasos2.Fs
