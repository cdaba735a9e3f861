import Pegasos2.ExfatAddresses
import Pegasos2.VolumeImage

namespace Pegasos2.Fs
open Program
open PartitionPkg (Agree)
set_option autoImplicit true

theorem Agree.be16 (h : Agree n b c) (hi : i + 2 ≤ n) :
    Pegasos2.be16 b i = Pegasos2.be16 c i := by
  rw [Pegasos2.be16, Pegasos2.be16, Buf.nat, Buf.nat, Buf.nat, Buf.nat, h i (by omega),
    h (i + 1) (by omega)]

theorem Agree.nat (h : Agree n b c) (hi : i < n) : b.nat i = c.nat i :=
  congrArg UInt8.toNat (h i hi)

/-- The partition at `loc` has the blocks `block`, and the others cannot be read. -/
def Disk.HasBlocks (d : Disk) (loc : Nat) (block : Nat → Option Buf) : Prop :=
  ∀ n buf, Prog.Yields (readBlock d loc n buf) fun x =>
    (x.1 = .noError ∧ ∃ b, block n = some b ∧ Agree bsize x.2 b) ∨
      x.1 ≠ .noError ∧ block n = none

/-- Block `n` of the partition at `loc`. -/
def ImageDisk.block (d : ImageDisk) (loc n : Nat) : Buf := fun j =>
  d.image (u64 (loc + n * bsize) + j)

def ImageDisk.blocks (d : ImageDisk) (loc : Nat) : Nat → Option Buf := fun n => some (d.block loc n)

def Drive.block (d : Drive) (loc n : Nat) : Option Buf :=
  match d.read 0 (u64 (loc + n * bsize)) bsize with
  | .ok _ => some (d.toImageDisk.block loc n)
  | .fail _ _ => none

theorem ImageDisk.Reads.hasBlocks {d : ImageDisk} (h : d.Reads) (loc : Nat) :
    d.toDisk.HasBlocks loc (d.blocks loc) := by
  intro n buf
  apply (h.filesysReadBytes (u64 (loc + n * bsize)) bsize buf).mono
  intro x hx
  exact .inl ⟨hx.1, _, rfl, hx.2⟩

theorem Drive.hasBlocks (d : Drive) (loc : Nat) : d.toDisk.HasBlocks loc (d.block loc) := by
  intro n buf w
  rw [Drive.block]
  obtain ⟨data, hread, hrun⟩ | ⟨fault, left, hread, hrun⟩ :=
    filesysReadBytes_halts d.toDisk (u64 (loc + n * bsize)) bsize buf w
  · refine ⟨_, _, hrun, .inl ⟨rfl, d.toImageDisk.block loc n, ?_, ?_⟩⟩
    · rw [d.steady 0 w.reads, hread]
    · intro i hi
      have hcopy : buf.copy 0 data 0 bsize (0 + i) = data (0 + i) := Buf.copy_inside buf data hi
      rw [Nat.zero_add] at hcopy
      exact hcopy.trans (d.faithful _ _ _ _ hread i hi)
  · refine ⟨_, _, hrun, .inr ⟨fault.code_ne.1, ?_⟩⟩
    rw [d.steady 0 w.reads, hread]

section

variable {d : Disk} {loc : Nat} {block : Nat → Option Buf} (hd : d.HasBlocks loc block)

include hd

theorem Disk.HasBlocks.reads (hb : block n = some b) (buf : Buf) :
    Prog.Yields (readBlock d loc n buf) fun x => x.1 = .noError ∧ Agree bsize x.2 b := by
  apply (hd n buf).mono
  rintro x (⟨hret, c, hc, hagree⟩ | ⟨-, hnone⟩)
  · cases hb.symm.trans hc
    exact ⟨hret, hagree⟩
  · cases hb.symm.trans hnone

end

/-- The extents of a file from `key` on, up to the key `last`. An extent without blocks would end
the file, as the key zero does. -/
inductive FileChain (At : Nat → Extent → Prop) : Nat → List Extent → Nat → Prop where
  | nil : FileChain At key [] key
  | cons (hkey : key ≠ 0) (h : At key x) (hblocks : x.blocks ≠ 0)
      (rest : FileChain At x.next xs last) : FileChain At key (x :: xs) last

/-- The numbers of the blocks of an extent, which are longs. -/
def Extent.blockList (x : Extent) : List Nat := (List.range x.blocks).map fun i => u32 (x.first + i)

/-- The blocks of a file in chain order. -/
def blockList (xs : List Extent) : List Nat := xs.flatMap Extent.blockList

/-- The bytes of blocks one after the other. -/
def concat (block : Nat → Buf) (ns : List Nat) : Buf := fun j =>
  block (ns.getD (j / bsize) 0) (j % bsize)

theorem Extent.length_blockList (x : Extent) : x.blockList.length = x.blocks := by
  rw [blockList, List.length_map, List.length_range]

theorem concat_block (block : Nat → Buf) (hn : ns[k]? = some n) (hj : j < bsize) :
    concat block ns (k * bsize + j) = block n j := by
  have hdiv : (k * bsize + j) / bsize = k := by
    rw [Nat.add_comm, Nat.add_mul_div_right _ _ (by decide), Nat.div_eq_of_lt hj, Nat.zero_add]
  have hmod : (k * bsize + j) % bsize = j := by
    rw [Nat.add_comm, Nat.add_mul_mod_self_right, Nat.mod_eq_of_lt hj]
  rw [concat, hdiv, hmod, List.getD_eq_getElem?_getD, hn, Option.getD_some]

/-- Block `i` of an extent, in front of which there are the blocks `done`. -/
theorem getElem?_extent (done more : List Nat) (x : Extent) (hi : i < x.blocks) :
    (done ++ (x.blockList ++ more))[done.length + i]? = some (u32 (x.first + i)) := by
  have hlen : i < x.blockList.length := Nat.lt_of_lt_of_eq hi x.length_blockList.symm
  rw [List.getElem?_append_right (Nat.le_add_right _ _), Nat.add_sub_cancel_left,
    List.getElem?_append_left hlen, Extent.blockList, List.getElem?_map, List.getElem?_range hi,
    Option.map_some]

section

variable {d : ImageDisk} {loc : Nat} (hd : d.Reads) (stack out : Buf)

include hd

/-- The blocks of an extent are read behind the blocks `done`. -/
theorem readExtent_fills (done more : List Nat) (x : Extent) (byteSize : Nat)
    (h : Copied.Filled (concat (d.block loc) (done ++ (x.blockList ++ more))) out
      (min (done.length * bsize) byteSize) c) :
    Prog.Yields (readExtent d.toDisk stack loc byteSize x c) fun y => y.1 = .noError ∧
      Copied.Filled (concat (d.block loc) (done ++ (x.blockList ++ more))) out
        (min ((done ++ x.blockList).length * bsize) byteSize) y.2 := by
  rw [List.length_append, x.length_blockList]
  apply Prog.Yields.loop
    (fun s => s.1 ≤ x.blocks ∧
      Copied.Filled (concat (d.block loc) (done ++ (x.blockList ++ more))) out
        (min ((done.length + s.1) * bsize) byteSize) s.2)
    (fun s => x.blocks - s.1)
  · rintro ⟨i, c⟩ ⟨hi, hfilled⟩
    have hwritten := hfilled.written
    dsimp only at hi hfilled hwritten
    rw [extentRound]
    split_ifs with hmore
    · obtain ⟨hin, hleft⟩ := hmore
      dsimp only at hin hleft
      have hlt : (done.length + i) * bsize < byteSize := by omega
      have hread := (hd.hasBlocks loc).reads (n := u32 (x.first + i)) rfl stack
      apply Prog.Yields.bind hread
      rintro ⟨ret, dblk⟩ ⟨hret, hb⟩
      apply Prog.Yields.pure
      dsimp only
      rw [if_neg fun hne => hne hret]
      refine ⟨⟨hin, ?_⟩, Nat.sub_succ_lt_self _ _ hin⟩
      rw [Nat.min_eq_left (Nat.le_of_lt hlt)] at hfilled
      rw [← Nat.add_assoc, Nat.succ_mul]
      apply hfilled.append (Nat.le_of_lt hlt)
      intro j hj _
      rw [concat_block _ (getElem?_extent done more x hin) hj]
      exact hb j hj
    · apply Prog.Yields.pure
      refine ⟨rfl, ?_⟩
      have hall : min ((done.length + i) * bsize) byteSize =
          min ((done.length + x.blocks) * bsize) byteSize := by
        by_cases hend : i < x.blocks
        · have hfull : byteSize ≤ c.written := Nat.not_lt.1 fun hlt => hmore ⟨hend, hlt⟩
          have hle : (done.length + i) * bsize ≤ (done.length + x.blocks) * bsize :=
            Nat.mul_le_mul_right _ (Nat.add_le_add_left hi _)
          omega
        · rw [Nat.le_antisymm hi (Nat.not_lt.1 hend)]
      rw [← hall]
      exact hfilled
  · exact ⟨Nat.zero_le _, h⟩

variable {lookup : Nat → Io (Except Retcode Extent)} {At : Nat → Extent → Prop}
  (hlookup : ∀ key x, At key x → Prog.Yields (lookup key) (· = .ok x))

include hlookup

/-- The loop over the extents, with the blocks `done` in front of them. The induction is on what is
left of the chain. -/
theorem chainLoop_fills (hchain : FileChain At key xs last) (done : List Nat)
    {byteSize guard : Nat} (hguard : guard + xs.length ≤ 65536)
    (hsize : byteSize ≤ (done ++ blockList xs).length * bsize)
    (h : Copied.Filled (concat (d.block loc) (done ++ blockList xs)) out
      (min (done.length * bsize) byteSize) c) :
    Prog.Yields (.loop (chainRound d.toDisk stack loc byteSize lookup) ⟨key, guard, c⟩)
      (· = (.noError, ⟨byteSize, out.copy 0 (concat (d.block loc) (done ++ blockList xs)) 0
        byteSize⟩)) := by
  induction hchain generalizing done guard c with
  | nil =>
    apply Prog.Yields.loop_unfold
    have hall : min (done.length * bsize) byteSize = byteSize := by
      rw [blockList, List.flatMap_nil, List.append_nil] at hsize
      exact Nat.min_eq_right hsize
    rw [hall] at h
    have hwritten := h.written
    rw [chainRound, if_neg fun hmore => Nat.lt_irrefl _ (hwritten ▸ hmore.1)]
    exact Prog.Yields.pure (congrArg (Prod.mk Retcode.noError) h)
  | @cons key x xs last hkey hat hblocks rest ih =>
    apply Prog.Yields.loop_unfold
    have hwritten := h.written
    have hassoc : done ++ blockList (x :: xs) = done ++ x.blockList ++ blockList xs := by
      rw [blockList, List.flatMap_cons, ← List.append_assoc]
      rfl
    rw [List.length_cons] at hguard
    rw [chainRound]
    split_ifs with hmore hlimit
    · dsimp only at hlimit
      omega
    · apply Prog.Yields.bind (hlookup key x hat)
      rintro _ rfl
      rw [chainNext, if_neg hblocks]
      apply Prog.Yields.bind (readExtent_fills hd stack out done (blockList xs) x byteSize h)
      rintro ⟨ret, c'⟩ ⟨hret, hfilled⟩
      apply Prog.Yields.pure
      dsimp only
      rw [if_neg fun hne => hne hret]
      rw [hassoc] at hsize ⊢
      rw [← List.append_assoc] at hfilled
      exact ih (done ++ x.blockList) (by omega) hsize hfilled
    · have hfull : min (done.length * bsize) byteSize = byteSize := by
        have hdone : byteSize ≤ c.written := Nat.not_lt.1 fun hlt => hmore ⟨hlt, hkey⟩
        omega
      rw [hfull] at h
      exact Prog.Yields.pure (congrArg (Prod.mk Retcode.noError) h)

theorem readFile_fills (hchain : FileChain At first xs last) {byteSize : Nat}
    (hlen : xs.length ≤ 65536) (hsize : byteSize ≤ (blockList xs).length * bsize) :
    Prog.Yields (readFile d.toDisk stack loc lookup first byteSize out)
      (· = (.noError, ⟨byteSize, out.copy 0 (concat (d.block loc) (blockList xs)) 0
        byteSize⟩)) := by
  apply chainLoop_fills hd stack out hlookup hchain []
  · rw [Nat.zero_add]
    exact hlen
  · exact hsize
  · rw [List.length_nil, Nat.zero_mul, Nat.zero_min]
    exact .zero _ out

end

end Pegasos2.Fs
