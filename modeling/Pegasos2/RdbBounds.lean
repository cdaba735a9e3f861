import Pegasos2.BlockReads
import Pegasos2.PartitionPkg

namespace Pegasos2.Fs
open Program Look
set_option autoImplicit true

namespace Rdb

def lookChecksumOk (longCount : Nat) : Look UInt8 Bool :=
  if longCount = 0 ∨ 128 < longCount then pure false
  else do
    let sum ← lookChecksum longCount
    pure (sum == 0)

/-- Whether the block has a `SummedLongs` that it sums to zero over. -/
def lookSummed : Look UInt8 Bool := do
  let summedLongs ← lookBe32 4
  lookChecksumOk summedLongs

/-- Whether the block is an RDB. -/
def lookIsRdb : Look UInt8 Bool := do
  let id ← lookBe32 0
  if id ≠ magicRdsk then pure false else lookSummed

def lookEnv : Look UInt8 Env := do
  let sizeBlock ← lookBe32 (128 + 1 * 4)
  let surfaces ← lookBe32 (128 + 3 * 4)
  let sectorPerBlock ← lookBe32 (128 + 4 * 4)
  let blocksPerTrack ← lookBe32 (128 + 5 * 4)
  let lowCyl ← lookBe32 (128 + 9 * 4)
  let highCyl ← lookBe32 (128 + 10 * 4)
  let bootPri ← lookBe32 (128 + 15 * 4)
  let dosType ← lookBe32 (128 + 16 * 4)
  pure ⟨sizeBlock, surfaces, sectorPerBlock, blocksPerTrack, lowCyl, highCyl, bootPri, dosType⟩

/-- `print_bstr` of the drive name. -/
def lookBstr : Look UInt8 (List UInt8) := do
  let len ← lookNat 36
  lookBytes 37 (min len 31)

def checkedFindRdbFrom (d : Disk) (loc : Nat) : Nat → Nat → Buf → Checked World (Option Nat × Buf)
  | 0, _, buf => pure (none, buf)
  | n + 1, b, buf => do
    let (ret, buf) ← .lift
      (filesysReadBytes d (u64 (loc + b * blockSizeDefault)) blockSizeDefault buf)
    if ret ≠ .noError then pure (none, buf)
    else do
      let ok ← .inspect blockSizeDefault buf lookIsRdb
      if ok then pure (some b, buf) else checkedFindRdbFrom d loc n (b + 1) buf

def Pos.checkedNext (p : Pos) (buf : Buf) : Checked World (Pos ⊕ Reply) := do
  let next ← .inspect blockSizeDefault buf (lookBe32 16)
  pure (.inl ⟨next, p.idx + 1, buf⟩)

/-- What a list shows of a partition. -/
def checkedPrint (q : Call) (selected : Int) (buf : Buf) : Checked World Unit :=
  if q.what = .list ∧ selected < 0 then do
    let _ ← .inspect blockSizeDefault buf lookBstr
  else pure ()

def checkedVisit (fs : Call → Io Reply) (q : Call) (selected : Int) (path : List Char) (p : Pos)
    (buf : Buf) (v : Env) : Option (Nat × Nat) → Checked World (Pos ⊕ Reply)
  | none => p.checkedNext buf
  | some (start, size) => do
    checkedPrint q selected buf
    if selected = p.idx ∧ (q.what = .list ∨ q.what = .load) then do
      .lift (publish ⟨size, v.fsBlockSize⟩ (u64 (q.loc + start)))
      let r ← .lift (fs (slice q path buf start))
      pure (.inr (relabel r))
    else p.checkedNext buf

def checkedInspect (fs : Call → Io Reply) (q : Call) (selected : Int) (path : List Char) (p : Pos)
    (ret : Retcode) (buf : Buf) : Checked World (Pos ⊕ Reply) :=
  if ret ≠ .noError then pure (.inr (q.reply ret))
  else do
    let id ← .inspect blockSizeDefault buf (lookBe32 0)
    if id ≠ magicPart then pure (.inr (q.reply .eNoFilesys))
    else do
      let v ← .inspect blockSizeDefault buf lookEnv
      checkedVisit fs q selected path p buf v v.range

def checkedRound (d : Disk) (fs : Call → Io Reply) (q : Call) (selected : Int) (path : List Char)
    (p : Pos) : Checked World (Pos ⊕ Reply) :=
  if p.AtEnd then
    pure (.inr (q.reply (if selected ≥ 0 ∧ selected ≥ p.idx then .eNoFilesys else .rEnd)))
  else do
    let (ret, buf) ← .lift (filesysReadBytes d (u64 (q.loc + p.blkno * blockSizeDefault))
      blockSizeDefault p.buf)
    checkedInspect fs q selected path p ret buf

def checkedPartitions (d : Disk) (fs : Call → Io Reply) (q : Call) (buf : Buf) :
    Checked World Reply := do
  let list ← .inspect blockSizeDefault buf (lookBe32 28)
  if list = 0 ∨ list = 0xFFFFFFFF then pure (q.reply .eNoFilesys)
  else
    .loop (checkedRound d fs q (selectPartition q.path).1 (selectPartition q.path).2)
      ⟨list, 0, buf⟩

def checkedAfterReread (d : Disk) (fs : Call → Io Reply) (q : Call) (b : Nat) (ret : Retcode)
    (buf : Buf) : Checked World Reply :=
  if ret ≠ .noError then pure (q.reply ret)
  else if q.what = .probe then
    pure { q.reply .rEnd with
      probed := q.probed ++ ",amiga-rdb".toList, val := u64 (q.loc + b * blockSizeDefault) }
  else checkedPartitions d fs q buf

def checkedAfterFind (d : Disk) (fs : Call → Io Reply) (q : Call) :
    Option Nat → Buf → Checked World Reply
  | none, _ => pure (q.reply .eNoFilesys)
  | some b, buf => do
    let (ret, buf) ← .lift
      (filesysReadBytes d (u64 (q.loc + b * blockSizeDefault)) blockSizeDefault buf)
    checkedAfterReread d fs q b ret buf

def checkedAmigaRdb (d : Disk) (fs : Call → Io Reply) (q : Call) : Checked World Reply :=
  if q.size < blockSizeDefault then pure (q.reply .eBlocksize)
  else do
    .lift (setHint ⟨0, 0⟩)
    let (rdb, buf) ← checkedFindRdbFrom d q.loc 16 0 q.buf
    checkedAfterFind d fs q rdb buf

theorem reads_checksumOk (b : Buf) (longCount : Nat) :
    Reads blockSizeDefault b (lookChecksumOk longCount) (rdbChecksumOk b longCount) := by
  rw [lookChecksumOk]
  split_ifs with hbad
  · have hcount : rdbChecksumOk b longCount = false := by
      rw [rdbChecksumOk, Bool.and_eq_false_iff, Bool.and_eq_false_iff]
      exact .inl (hbad.imp (fun h => decide_eq_false (not_not_intro h))
        fun h => decide_eq_false (Nat.not_le.2 h))
    exact (Reads.pure _ b false).eq hcount.symm
  · have hin : longCount * 4 ≤ blockSizeDefault := by
      rw [blockSizeDefault]
      omega
    have hlow : longCount ≠ 0 := by omega
    have hhigh : longCount ≤ 128 := by omega
    refine (reads_checksum b hin).bind ((Reads.pure _ b _).eq ?_)
    rw [rdbChecksumOk, decide_eq_true hlow, decide_eq_true hhigh, Bool.true_and, Bool.true_and]

theorem reads_summed (b : Buf) :
    Reads blockSizeDefault b lookSummed (rdbChecksumOk b (be32 b 4)) :=
  (reads_be32 b (by decide)).bind (reads_checksumOk b _)

theorem reads_isRdb (b : Buf) :
    Reads blockSizeDefault b lookIsRdb
      (decide (be32 b 0 = magicRdsk ∧ rdbChecksumOk b (be32 b 4) = true)) := by
  apply (reads_be32 b (by decide)).bind
  split_ifs with hid
  · exact (Reads.pure _ b false).eq (decide_eq_false fun h => hid h.1).symm
  · refine (reads_summed b).eq (Bool.eq_iff_iff.2 ?_)
    rw [decide_eq_true_iff, and_iff_right (not_not.1 hid)]

theorem reads_env (b : Buf) : Reads blockSizeDefault b lookEnv (env b) := by
  apply (reads_be32 b (by decide)).bind
  apply (reads_be32 b (by decide)).bind
  apply (reads_be32 b (by decide)).bind
  apply (reads_be32 b (by decide)).bind
  apply (reads_be32 b (by decide)).bind
  apply (reads_be32 b (by decide)).bind
  apply (reads_be32 b (by decide)).bind
  exact (reads_be32 b (by decide)).bind (.pure _ b _)

theorem reads_bstr (b : Buf) :
    Reads blockSizeDefault b lookBstr (bytes b 37 (min (b.nat 36) 31)) := by
  have hlen : 37 + min (b.nat 36) 31 ≤ blockSizeDefault := by
    rw [blockSizeDefault]
    omega
  exact (reads_nat b (by decide)).bind (reads_bytes b hlen)

theorem findRdbFrom_follows (d : Disk) (loc n b : Nat) (buf : Buf) :
    (checkedFindRdbFrom d loc n b buf).Follows (findRdbFrom d loc n b buf) := by
  induction n generalizing b buf with
  | zero => exact .pure _
  | succ n ih =>
    apply (Checked.Follows.lift _).bind
    rintro ⟨ret, buf⟩
    refine .ite (fun _ => .pure _) fun _ => ?_
    exact .inspect_ite (reads_isRdb buf) (fun _ => .pure _) fun _ => ih (b + 1) buf

section

variable (fs : Call → Io Reply) (q : Call) (selected : Int) (path : List Char) (p : Pos)

theorem Pos.next_follows (buf : Buf) : (p.checkedNext buf).Follows (pure (.inl (p.next buf))) :=
  Checked.Follows.inspect_bind (reads_be32 buf (by decide)) (.pure _)

theorem print_follows (buf : Buf) : (checkedPrint q selected buf).Follows (pure ()) := by
  rw [checkedPrint]
  split_ifs
  · exact Checked.Follows.inspect_bind (reads_bstr buf) (.pure _)
  · exact .pure _

theorem visit_follows (buf : Buf) (range : Option (Nat × Nat)) :
    (checkedVisit fs q selected path p buf (env buf) range).Follows
      (visit fs q selected path p buf range) := by
  cases range with
  | none => exact p.next_follows buf
  | some range =>
    apply (print_follows q selected buf).bind_pure
    rw [visit]
    split_ifs
    · apply (Checked.Follows.lift _).bind
      intro _
      exact (Checked.Follows.lift _).bind fun r => .pure _
    · exact p.next_follows buf

theorem inspect_follows (ret : Retcode) (buf : Buf) :
    (checkedInspect fs q selected path p ret buf).Follows
      (inspect fs q selected path p ret buf) := by
  rw [checkedInspect, inspect]
  refine .ite (fun _ => .pure _) fun _ => ?_
  apply Checked.Follows.inspect_bind (reads_be32 buf (by decide))
  refine .ite (fun _ => .pure _) fun _ => ?_
  exact Checked.Follows.inspect_bind (reads_env buf) (visit_follows fs q selected path p buf _)

end

theorem partitions_follows (d : Disk) (fs : Call → Io Reply) (q : Call) (buf : Buf) :
    (checkedPartitions d fs q buf).Follows (partitions d fs q buf) := by
  rw [partitions]
  apply Checked.Follows.inspect_bind (reads_be32 buf (by decide))
  split_ifs
  · exact .pure _
  · apply Checked.Follows.loop_of
    intro p
    rw [checkedRound, round]
    refine .ite (fun _ => .pure _) fun _ => ?_
    apply (Checked.Follows.lift _).bind
    rintro ⟨ret, buf⟩
    exact inspect_follows fs q _ _ p ret buf

/-- A call of the parser of RDBs breaks no condition, whatever file systems there are. -/
theorem amigaRdb_follows (d : Disk) (fs : Call → Io Reply) (q : Call) :
    (checkedAmigaRdb d fs q).Follows (amigaRdb d fs q) := by
  rw [checkedAmigaRdb, amigaRdb]
  split_ifs
  · exact .pure _
  · apply (Checked.Follows.lift _).bind
    intro _
    apply (findRdbFrom_follows d q.loc 16 0 q.buf).bind
    rintro ⟨rdb, buf⟩
    cases rdb with
    | none => exact .pure _
    | some b =>
      apply (Checked.Follows.lift _).bind
      rintro ⟨ret, buf⟩
      show Checked.Follows (checkedAfterReread d fs q b ret buf) (afterReread d fs q b ret buf)
      rw [checkedAfterReread, afterReread]
      split_ifs
      · exact .pure _
      · exact .pure _
      · exact partitions_follows d fs q buf

end Rdb

namespace PartitionPkg

open Rdb (blockSizeDefault magicRdsk magicPart Env env lookIsRdb lookSummed lookEnv)

/-- The drive name as a C string, or a name for an anonymous partition. -/
def lookDriveName (idx : Nat) : Look UInt8 (List UInt8) := do
  let nlen ← lookNat 36
  let name ← lookBytes 37 (min nlen 31)
  pure (if nlen = 0 then [0x44, 0x48, .ofNat (0x30 + idx % 10)] else name.takeWhile (· ≠ 0))

def checkedPackage (mem : Memory) (buf : Buf) (v : Env) (idx start size : Nat) :
    Checked World Package := do
  let name ← .inspect blockSizeDefault buf (lookDriveName idx)
  pure ⟨name, idx, v.dosType, Int.bmod v.bootPri (2 ^ 32),
    if mem.self idx then some (partitionSelf v start size) else none⟩

def checkedVisit (mem : Memory) (s : Walk) (buf : Buf) (v : Env) :
    Option (Nat × Nat) → Checked World (Walk ⊕ (Retcode × List Package))
  | none => pure (.inr (.noError, s.packages))
  | some (start, size) => do
    let p ← checkedPackage mem buf v s.idx start size
    if mem.package s.idx then
      if mem.self s.idx then do
        let next ← .inspect blockSizeDefault buf (lookBe32 16)
        pure (.inl ⟨next, s.idx + 1, buf, .noError, s.packages ++ [p]⟩)
      else pure (.inr (.eOutOfMemory, s.packages ++ [p]))
    else pure (.inr (.eOutOfMemory, s.packages))

def checkedInspect (mem : Memory) (s : Walk) (ret : Retcode) (buf : Buf) :
    Checked World (Walk ⊕ (Retcode × List Package)) :=
  if ret ≠ .noError then pure (.inr (ret, s.packages))
  else do
    let id ← .inspect blockSizeDefault buf (lookBe32 0)
    if id ≠ magicPart then pure (.inr (.noError, s.packages))
    else do
      let ok ← .inspect blockSizeDefault buf lookSummed
      if ok then do
        let v ← .inspect blockSizeDefault buf lookEnv
        checkedVisit mem s buf v v.range
      else pure (.inr (.noError, s.packages))

def checkedRound (d : Disk) (mem : Memory) (s : Walk) :
    Checked World (Walk ⊕ (Retcode × List Package)) :=
  if s.AtEnd then pure (.inr (s.ret, s.packages))
  else do
    let (ret, buf) ← .lift (diskReadAt d (s.blkno * blockSizeDefault) blockSizeDefault s.buf)
    checkedInspect mem s ret buf

def checkedFindRdbFrom (d : Disk) :
    Nat → Nat → Buf → Checked World (Except Retcode Nat × Buf)
  | 0, _, buf => pure (.error .eNoFilesys, buf)
  | n + 1, b, buf => do
    let (ret, buf) ← .lift (diskReadAt d (b * blockSizeDefault) blockSizeDefault buf)
    if ret ≠ .noError then pure (.error ret, buf)
    else do
      let ok ← .inspect blockSizeDefault buf lookIsRdb
      if ok then pure (.ok b, buf) else checkedFindRdbFrom d n (b + 1) buf

def checkedAfterReread (d : Disk) (mem : Memory) (ret : Retcode) (buf : Buf) :
    Checked World (Retcode × List Package) :=
  if ret ≠ .noError then pure (ret, [])
  else do
    let list ← .inspect blockSizeDefault buf (lookBe32 28)
    .loop (checkedRound d mem) ⟨list, 0, buf, .noError, []⟩

def checkedAfterFind (d : Disk) (mem : Memory) :
    Except Retcode Nat → Buf → Checked World (Retcode × List Package)
  | .error ret, _ => pure (ret, [])
  | .ok b, buf => do
    let (ret, buf) ← .lift (diskReadAt d (b * blockSizeDefault) blockSizeDefault buf)
    checkedAfterReread d mem ret buf

def checkedAddPartitions (d : Disk) (mem : Memory) (opened : Except Retcode Unit) (buf : Buf) :
    Checked World (Retcode × List Package) :=
  match opened with
  | .error ret => pure (ret, [])
  | .ok () => do
    let (rdb, buf) ← checkedFindRdbFrom d 16 0 buf
    checkedAfterFind d mem rdb buf

theorem reads_driveName (b : Buf) (idx : Nat) :
    Reads blockSizeDefault b (lookDriveName idx) (driveName b idx) := by
  have hlen : 37 + min (b.nat 36) 31 ≤ blockSizeDefault := by
    rw [blockSizeDefault]
    omega
  exact (reads_nat b (by decide)).bind ((reads_bytes b hlen).bind (.pure _ b _))

theorem reads_chksum (b : Buf) :
    Reads blockSizeDefault b lookSummed (rdbChksumOk b (be32 b 4)) := Rdb.reads_summed b

theorem reads_isRdb (b : Buf) :
    Reads blockSizeDefault b lookIsRdb
      (decide (be32 b 0 = magicRdsk ∧ rdbChksumOk b (be32 b 4) = true)) := Rdb.reads_isRdb b

theorem checkedPackage_follows (mem : Memory) (buf : Buf) (idx start size : Nat) :
    (checkedPackage mem buf (env buf) idx start size).Follows
      (pure (package mem buf idx start size)) :=
  Checked.Follows.inspect_bind (reads_driveName buf idx) (.pure _)

theorem checkedVisit_follows (mem : Memory) (s : Walk) (buf : Buf) (range : Option (Nat × Nat)) :
    (checkedVisit mem s buf (env buf) range).Follows (pure (visit mem s buf range)) := by
  cases range with
  | none => exact .pure _
  | some range =>
    apply (checkedPackage_follows mem buf s.idx range.1 range.2).bind_pure
    rw [visit]
    split_ifs
    · exact Checked.Follows.inspect_bind (reads_be32 buf (by decide)) (.pure _)
    · exact .pure _
    · exact .pure _

theorem checkedInspect_follows (mem : Memory) (s : Walk) (ret : Retcode) (buf : Buf) :
    (checkedInspect mem s ret buf).Follows (pure (inspect mem s ret buf)) := by
  rw [checkedInspect, inspect]
  refine .ite_pure (fun _ => .pure _) fun _ => ?_
  apply Checked.Follows.inspect_bind (reads_be32 buf (by decide))
  refine .ite_pure (fun _ => .pure _) fun _ => ?_
  apply Checked.Follows.inspect_bind (reads_chksum buf)
  refine .ite_pure (fun _ => ?_) fun _ => .pure _
  exact Checked.Follows.inspect_bind (Rdb.reads_env buf) (checkedVisit_follows mem s buf _)

theorem checkedFindRdbFrom_follows (d : Disk) (n b : Nat) (buf : Buf) :
    (checkedFindRdbFrom d n b buf).Follows (findRdbFrom d n b buf) := by
  induction n generalizing b buf with
  | zero => exact .pure _
  | succ n ih =>
    apply (Checked.Follows.lift _).bind
    rintro ⟨ret, buf⟩
    refine .ite (fun _ => .pure _) fun _ => ?_
    exact .inspect_ite (reads_isRdb buf) (fun _ => .pure _) fun _ => ih (b + 1) buf

theorem checkedAddPartitions_follows (d : Disk) (mem : Memory) (opened : Except Retcode Unit)
    (buf : Buf) :
    (checkedAddPartitions d mem opened buf).Follows (addPartitionsForDisk d mem opened buf) := by
  have hround (s : Walk) : (checkedRound d mem s).Follows (round d mem s) := by
    rw [checkedRound, round]
    split_ifs
    · exact .pure _
    · apply (Checked.Follows.lift _).bind
      rintro ⟨ret, buf⟩
      exact checkedInspect_follows mem s ret buf
  cases opened with
  | error ret => exact .pure _
  | ok =>
    apply (checkedFindRdbFrom_follows d 16 0 buf).bind
    rintro ⟨rdb, buf⟩
    cases rdb with
    | error ret => exact .pure _
    | ok b =>
      apply (Checked.Follows.lift _).bind
      rintro ⟨ret, buf⟩
      show Checked.Follows (checkedAfterReread d mem ret buf) (afterReread d mem ret buf)
      rw [checkedAfterReread, afterReread]
      split_ifs
      · exact .pure _
      · exact Checked.Follows.inspect_bind (reads_be32 buf (by decide)) (.loop_of hround _)

end PartitionPkg

end Pegasos2.Fs
