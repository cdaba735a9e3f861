import Pegasos2.PartitionPkg

namespace Pegasos2.Fs
open Program
set_option autoImplicit true

namespace PartitionPkg

/-- A call of the parent's `read-blocks`. -/
structure Request where
  block : Nat
  count : Nat

/-- The sectors of a request. -/
def Request.Asks (r : Request) (sector : Nat) : Prop := ∃ i < r.count, sector = u32 (r.block + i)

/-- What the parent's `read-blocks` returns, pushes and stores. -/
structure Answer where
  ret : Retcode
  got : Nat
  data : Buf

/-- The instances of a package, with the cursor of each one that is open, and what the parent has
been asked for. -/
structure Insts where
  cursor : Nat → Option Nat
  requests : List Request

def Insts.none : Insts := ⟨fun _ => .none, []⟩

abbrev Op := Prog Insts

def cursorOf (inst : Nat) : Op (Option Nat) := .access fun s => (s.cursor inst, s)

def setCursor (inst : Nat) (c : Option Nat) : Op Unit :=
  .access fun s => ((), { s with cursor := Function.update s.cursor inst c })

section Methods

variable (ps : PartitionSelf) (parent : List Request → Answer)

/-- The parent may answer each request as it likes. -/
def parentReadBlocks (r : Request) : Op Answer :=
  .access fun s => (parent (s.requests ++ [r]), { s with requests := s.requests ++ [r] })

/-- `mem` says whether `malloc` succeeds. -/
def partOpen (inst : Nat) (mem : Bool) : Op (Except Retcode Nat) :=
  if mem then do
    setCursor inst (some 0)
    pure (.ok 0xFFFFFFFF)
  else pure (.error .eOutOfMemory)

def partClose (inst : Nat) : Op (Except Retcode Unit) := do
  setCursor inst .none
  pure (.ok ())

def partReadBlocks (blockNum nBlocks : Nat) : Op (Except Retcode Nat) := do
  let a ← parentReadBlocks parent
    ⟨u32 (u64 (ps.startByte / ps.blockSize + u32 blockNum)), u32 nBlocks⟩
  pure (if a.ret = .noError then .ok a.got else .error a.ret)

def seekTo (inst pos : Nat) : Option Nat → Op (Except Retcode Nat)
  | .none => pure (.error .eBadInstance)
  | some _ =>
    if pos > ps.sizeBytes then pure (.ok 0xFFFFFFFF)
    else do
      setCursor inst (some pos)
      pure (.ok 0)

def partSeek (inst posLo posHi : Nat) : Op (Except Retcode Nat) := do
  let c ← cursorOf inst
  seekTo ps inst (u32 posLo + u32 posHi * 2 ^ 32) c

/-- The variables of `f_part_read`; `dst` is the memory at `addr`. -/
structure Reading where
  cursor : Nat
  remain : Nat
  copied : Nat
  dst : Buf

def absByte (cursor : Nat) : Nat := u64 (ps.startByte + cursor)

def offInBlk (cursor : Nat) : Nat :=
  u32 (absByte ps cursor - absByte ps cursor / ps.blockSize * ps.blockSize)

def chunk (s : Reading) : Nat :=
  if ps.blockSize - offInBlk ps s.cursor > s.remain then u32 s.remain
  else ps.blockSize - offInBlk ps s.cursor

/-- A round of the loop of `f_part_read` after the parent has answered. -/
def takeBlock (inst : Nat) (s : Reading) (a : Answer) :
    Op (Reading ⊕ (Except Retcode Nat × Buf)) :=
  if a.ret ≠ .noError then pure (.inr (.error a.ret, s.dst))
  else if a.got ≠ 1 then pure (.inr (.ok (u32 s.copied), s.dst))
  else do
    setCursor inst (some (u64 (s.cursor + chunk ps s)))
    pure (.inl ⟨u64 (s.cursor + chunk ps s), s.remain - chunk ps s, s.copied + chunk ps s,
      s.dst.copy s.copied a.data (offInBlk ps s.cursor) (chunk ps s)⟩)

def readRound (inst : Nat) (s : Reading) : Op (Reading ⊕ (Except Retcode Nat × Buf)) :=
  if s.remain = 0 then pure (.inr (.ok (u32 s.copied), s.dst))
  else do
    let a ← parentReadBlocks parent ⟨u32 (absByte ps s.cursor / ps.blockSize), 1⟩
    takeBlock ps inst s a

/-- The number of bytes to read, clipped to the partition. -/
def clip (cursor len : Nat) : Nat :=
  if u64 (cursor + len) > ps.sizeBytes then ps.sizeBytes - cursor else len

def readFrom (inst len : Nat) (dst : Buf) : Option Nat → Op (Except Retcode Nat × Buf)
  | .none => pure (.error .eBadInstance, dst)
  | some cursor =>
    if len = 0 then pure (.ok 0, dst)
    else if cursor ≥ ps.sizeBytes then pure (.ok 0, dst)
    else .loop (readRound ps parent inst) ⟨cursor, clip ps cursor len, 0, dst⟩

def partRead (inst len : Nat) (dst : Buf) : Op (Except Retcode Nat × Buf) := do
  let c ← cursorOf inst
  readFrom ps parent inst (u32 len) dst c

/-- A method call with its arguments. -/
inductive Method where
  | open (inst : Nat) (mem : Bool)
  | close (inst : Nat)
  | seek (inst posLo posHi : Nat)
  | read (inst len : Nat) (dst : Buf)
  | readBlocks (blockNum nBlocks : Nat)

def perform : Method → Op Unit
  | .open inst mem => do
    let _ ← partOpen inst mem
    pure ()
  | .close inst => do
    let _ ← partClose inst
    pure ()
  | .seek inst posLo posHi => do
    let _ ← partSeek ps inst posLo posHi
    pure ()
  | .read inst len dst => do
    let _ ← partRead ps parent inst len dst
    pure ()
  | .readBlocks blockNum nBlocks => do
    let _ ← partReadBlocks ps parent blockNum nBlocks
    pure ()

/-- The sector is one of the partition's, rounded out to sectors. -/
def Inside (sector : Nat) : Prop :=
  ps.startByte / 512 ≤ sector ∧ sector < (ps.startByte + ps.sizeBytes + 511) / 512

/-- The parent has been asked for sectors of the partition only. -/
def Isolated (s : Insts) : Prop := ∀ r ∈ s.requests, ∀ sector, r.Asks sector → Inside ps sector

/-- A call that asks the parent for nothing, or that stays within the partition and the first
2 TiB of the disk where the partition counts blocks as the parent does. -/
def Fine (s : Insts) : Method → Prop
  | .open _ _ => True
  | .close _ => True
  | .seek _ _ _ => True
  | .read inst len _ => ∀ c, s.cursor inst = some c → u32 len = 0 ∨ ps.sizeBytes ≤ c ∨
      ps.blockSize = 512 ∧ ps.startByte + min (c + u32 len) ps.sizeBytes ≤ 2 ^ 41
  | .readBlocks blockNum nBlocks => u32 nBlocks = 0 ∨
      ps.blockSize = 512 ∧ u32 blockNum + u32 nBlocks ≤ ps.nBlocks ∧
        ps.startByte / 512 + u32 blockNum + u32 nBlocks ≤ 2 ^ 32

/-- The states reached by calls that are all fine. -/
inductive Reaches : Insts → Prop
  | init : Reaches .none
  | call (hs : Reaches s) (hfine : Fine ps s m) (hrun : Prog.Halts (perform ps parent m) s () s') :
      Reaches s'

end Methods

variable {ps : PartitionSelf} {parent : List Request → Answer}

theorem Isolated.setCursor (h : Isolated ps s) (inst : Nat) (c : Option Nat) :
    Prog.Returns (PartitionPkg.setCursor inst c) s fun _ s' => Isolated ps s' :=
  .access h

theorem Isolated.parentReadBlocks (h : Isolated ps s) {r : Request}
    (hr : ∀ sector, r.Asks sector → Inside ps sector) :
    Prog.Returns (PartitionPkg.parentReadBlocks parent r) s fun _ s' => Isolated ps s' := by
  refine .access fun r' hr' => ?_
  obtain hr' | hr' := List.mem_append.1 hr'
  · exact h r' hr'
  · rw [List.mem_singleton.1 hr']
    exact hr

theorem partReadBlocks_isolated (h : Isolated ps s) (hn : ps.nBlocks = ps.sizeBytes / ps.blockSize)
    (hfine : Fine ps s (.readBlocks blockNum nBlocks)) :
    Prog.Returns (partReadBlocks ps parent blockNum nBlocks) s fun _ s' => Isolated ps s' := by
  refine .bind (h.parentReadBlocks ?_) fun a s' h' => .pure h'
  rintro sector ⟨i, hi, rfl⟩
  simp only at hi
  obtain hzero | ⟨hsize, hblocks, hend⟩ := hfine
  · omega
  · rw [hn, hsize] at hblocks
    have hblock :
        u32 (u64 (ps.startByte / 512 + u32 blockNum)) = ps.startByte / 512 + u32 blockNum := by
      rw [u64, Nat.mod_eq_of_lt (by omega), u32, Nat.mod_eq_of_lt (by omega)]
    simp only [hsize]
    rw [hblock]
    rw [u32, Nat.mod_eq_of_lt (by omega), Inside]
    omega

/-- What holds in the loop of `f_part_read`: the rest to read ends within the partition and within
the first 2 TiB. -/
structure Within (ps : PartitionSelf) (s : Reading) : Prop where
  size : s.cursor + s.remain ≤ ps.sizeBytes
  limit : ps.startByte + s.cursor + s.remain ≤ 2 ^ 41

theorem Within.absByte (h : Within ps s) :
    PartitionPkg.absByte ps s.cursor = ps.startByte + s.cursor := by
  have hlimit := h.limit
  rw [PartitionPkg.absByte, u64, Nat.mod_eq_of_lt (by omega)]

theorem Within.chunk (h : Within ps s) (hsize : ps.blockSize = 512) (hpos : s.remain ≠ 0) :
    0 < chunk ps s ∧ chunk ps s ≤ s.remain := by
  have hlimit := h.limit
  have hoff : offInBlk ps s.cursor < 512 := by
    rw [offInBlk, hsize, u32]
    have hmod := Nat.div_add_mod (PartitionPkg.absByte ps s.cursor) 512
    have hlt := Nat.mod_lt (PartitionPkg.absByte ps s.cursor) (y := 512) (by decide)
    omega
  rw [PartitionPkg.chunk, hsize]
  split
  · rw [u32, Nat.mod_eq_of_lt (by omega)]
    omega
  · omega

theorem Within.next (h : Within ps s) (hle : n ≤ s.remain) (dst : Buf) :
    Within ps ⟨u64 (s.cursor + n), s.remain - n, s.copied + n, dst⟩ := by
  have hsize := h.size
  have hlimit := h.limit
  have hcursor : u64 (s.cursor + n) = s.cursor + n := by
    rw [u64, Nat.mod_eq_of_lt (by omega)]
  rw [hcursor]
  exact ⟨by simp only; omega, by simp only; omega⟩

theorem readRound_isolated (inst : Nat) (h : Isolated ps s) (hsize : ps.blockSize = 512)
    (hr : Within ps r) :
    Prog.Returns (readRound ps parent inst r) s (Prog.Returns.Round
      (fun r s => Within ps r ∧ Isolated ps s) (·.remain) r.remain fun _ s => Isolated ps s) := by
  rw [readRound]
  by_cases hzero : r.remain = 0
  · rw [if_pos hzero]
    exact .pure h
  · rw [if_neg hzero]
    have hbound := hr.size
    have hlimit := hr.limit
    refine .bind (h.parentReadBlocks ?_) fun a s' h' => ?_
    · rintro sector ⟨i, hi, rfl⟩
      simp only at hi
      have hblock : u32 (absByte ps r.cursor / 512) = (ps.startByte + r.cursor) / 512 := by
        rw [hr.absByte, u32, Nat.mod_eq_of_lt (by omega)]
      simp only [hsize, hblock]
      rw [u32, Nat.mod_eq_of_lt (by omega), Inside]
      omega
    · obtain ⟨hpos, hle⟩ := hr.chunk hsize hzero
      rw [takeBlock]
      by_cases hret : a.ret ≠ .noError
      · rw [if_pos hret]
        exact .pure h'
      · rw [if_neg hret]
        by_cases hgot : a.got ≠ 1
        · rw [if_pos hgot]
          exact .pure h'
        · rw [if_neg hgot]
          refine .bind (h'.setCursor inst _) fun _ s'' h'' => .pure ⟨⟨hr.next hle _, h''⟩, ?_⟩
          simp only
          omega

theorem partRead_isolated (h : Isolated ps s) (hfine : Fine ps s (.read inst len dst)) :
    Prog.Returns (partRead ps parent inst len dst) s fun _ s' => Isolated ps s' := by
  refine .after (.access _ _) ?_
  cases hc : s.cursor inst with
  | none =>
    rw [readFrom]
    exact .pure h
  | some c =>
    rw [readFrom]
    by_cases hlen : u32 len = 0
    · rw [if_pos hlen]
      exact .pure h
    · rw [if_neg hlen]
      by_cases hpast : c ≥ ps.sizeBytes
      · rw [if_pos hpast]
        exact .pure h
      · rw [if_neg hpast]
        obtain hzero | hle | ⟨hsize, hend⟩ := hfine c hc
        · exact absurd hzero hlen
        · exact absurd hle hpast
        · have hclip : clip ps c (u32 len) = min (u32 len) (ps.sizeBytes - c) := by
            have hlt : u32 len < 2 ^ 32 := Nat.mod_lt _ (Nat.two_pow_pos 32)
            rw [clip, u64, Nat.mod_eq_of_lt (by omega)]
            split <;> omega
          refine .loop (fun r s => Within ps r ∧ Isolated ps s) (·.remain)
            (fun r s hr => readRound_isolated inst hr.2 hsize hr.1) ⟨⟨?_, ?_⟩, h⟩
          · simp only [hclip]
            omega
          · simp only [hclip]
            omega

/-- A fine call of any method asks the parent for sectors of the partition only. -/
theorem perform_isolated (hn : ps.nBlocks = ps.sizeBytes / ps.blockSize) (h : Isolated ps s)
    (hfine : Fine ps s m) :
    Prog.Returns (perform ps parent m) s fun _ s' => Isolated ps s' := by
  cases m with
  | «open» inst mem =>
    refine .bind (P := fun _ s' => Isolated ps s') ?_ fun _ s' h' => .pure h'
    rw [partOpen]
    split
    · exact .bind (h.setCursor inst _) fun _ s' h' => .pure h'
    · exact .pure h
  | close inst =>
    refine .bind (P := fun _ s' => Isolated ps s') ?_ fun _ s' h' => .pure h'
    exact .bind (h.setCursor inst _) fun _ s' h' => .pure h'
  | seek inst posLo posHi =>
    refine .bind (P := fun _ s' => Isolated ps s') ?_ fun _ s' h' => .pure h'
    refine .after (.access _ _) ?_
    cases s.cursor inst with
    | none =>
      rw [seekTo]
      exact .pure h
    | some c =>
      rw [seekTo]
      split
      · exact .pure h
      · exact .bind (h.setCursor inst _) fun _ s' h' => .pure h'
  | read inst len dst => exact .bind (partRead_isolated h hfine) fun _ s' h' => .pure h'
  | readBlocks blockNum nBlocks =>
    exact .bind (partReadBlocks_isolated h hn hfine) fun _ s' h' => .pure h'

theorem Reaches.isolated (hn : ps.nBlocks = ps.sizeBytes / ps.blockSize)
    (h : Reaches ps parent s) : Isolated ps s := by
  induction h with
  | init => exact fun r hr => absurd hr List.not_mem_nil
  | @call s m s' hs hfine hrun ih =>
    have hreturns : Prog.Returns (perform ps parent m) s fun _ s' => Isolated ps s' :=
      perform_isolated hn ih hfine
    obtain ⟨_, s', hrun', h'⟩ := hreturns
    obtain ⟨-, rfl⟩ := hrun.unique hrun'
    exact h'

/-- Calls that are fine never read outside the partition, for every package that the walk of a disk
creates. -/
theorem partition_isolated
    (hwalk : Prog.Halts (addPartitionsForDisk d mem opened buf) w (ret, l) w') (hp : p ∈ l)
    (hself : p.self = some ps) (h : Reaches ps parent s) : Isolated ps s := by
  obtain ⟨x, w₁, hwalk', hmade⟩ := addPartitionsForDisk_returns d mem opened buf w
  obtain ⟨rfl, -⟩ := hwalk.unique hwalk'
  obtain ⟨b, idx, start, size, -, rfl⟩ := hmade p hp
  refine h.isolated ?_
  rw [package] at hself
  simp only at hself
  split at hself
  · obtain rfl := Option.some.inj hself
    rfl
  · cases hself

/-- The partition of `single`. -/
def dh0 : PartitionSelf := ⟨32768, 131072, 512, 256⟩

def allRead (_ : List Request) : Answer := ⟨.noError, 1, fun _ => 0⟩

theorem single_self :
    ((addPartitionsForDisk single plenty (.ok ()) fun _ => 0).run 3 firstWorld).map
      (fun x => x.1.2.map fun p => p.self.map fun s => (s.startByte, s.sizeBytes, s.blockSize,
        s.nBlocks)) = some [some (32768, 131072, 512, 256)] := by decide +kernel

theorem single_dh0 : ∃ ret l w' p,
    Prog.Halts (addPartitionsForDisk single plenty (.ok ()) fun _ => 0) firstWorld (ret, l) w' ∧
      p ∈ l ∧ p.self = some dh0 := by
  obtain ⟨⟨⟨ret, l⟩, w'⟩, hrun, hx⟩ := Option.map_eq_some_iff.1 single_self
  obtain ⟨p, hp, hmap⟩ := List.map_eq_singleton_iff.1 hx
  obtain ⟨ps, hps, heq⟩ := Option.map_eq_some_iff.1 hmap
  have hl : l = [p] := hp
  refine ⟨ret, l, w', p, ⟨3, hrun⟩, ?_, ?_⟩
  · rw [hl]
    exact List.mem_singleton_self p
  · obtain ⟨start, size, bs, n⟩ := ps
    simp only [Prod.mk.injEq] at heq
    obtain ⟨rfl, rfl, rfl, rfl⟩ := heq
    exact hps

def Insts.after (s : Insts) (r : Request) : Insts := { s with requests := s.requests ++ [r] }

theorem partition_isolated_dh0 : ∃ ret l w' p,
    Prog.Halts (addPartitionsForDisk single plenty (.ok ()) fun _ => 0) firstWorld (ret, l) w' ∧
      p ∈ l ∧ p.self = some dh0 ∧ Isolated dh0 (Insts.none.after ⟨64, 256⟩) := by
  obtain ⟨ret, l, w', p, hwalk, hp, hself⟩ := single_dh0
  have hreach : Reaches dh0 allRead (Insts.none.after ⟨64, 256⟩) :=
    .call .init (m := .readBlocks 0 256) (.inr ⟨rfl, by decide, by decide⟩) ⟨0, rfl⟩
  exact ⟨ret, l, w', p, hwalk, hp, hself, partition_isolated hwalk hp hself hreach⟩

/-- `read-blocks` of the block behind the partition reads the disk there. -/
theorem readBlocks_escapes : ∃ ret l w' p,
    Prog.Halts (addPartitionsForDisk single plenty (.ok ()) fun _ => 0) firstWorld (ret, l) w' ∧
      p ∈ l ∧ p.self = some dh0 ∧
      ∃ s, Prog.Halts (perform dh0 allRead (.readBlocks 256 1)) .none () s ∧ ¬ Isolated dh0 s := by
  obtain ⟨ret, l, w', p, hwalk, hp, hself⟩ := single_dh0
  refine ⟨ret, l, w', p, hwalk, hp, hself, Insts.none.after ⟨320, 1⟩, ⟨0, rfl⟩, fun h => ?_⟩
  have hin := h ⟨320, 1⟩ (List.mem_singleton_self _) 320 ⟨0, by decide, rfl⟩
  exact absurd hin.2 (by decide)

end PartitionPkg

end Pegasos2.Fs
