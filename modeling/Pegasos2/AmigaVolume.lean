import Mathlib.Data.List.GetD
import Mathlib.Tactic.SplitIfs
import Pegasos2.AmigaRdb

namespace Pegasos2.Fs
open Program
set_option autoImplicit true

def bsize : Nat := 512

def readBlock (d : Disk) (partLoc blockNum : Nat) (buf : Buf) : Io (Retcode × Buf) :=
  filesysReadBytes d (u64 (partLoc + blockNum * bsize)) bsize buf

def foldCh (c : UInt8) : UInt8 :=
  if 0x61 ≤ c ∧ c ≤ 0x7A then c - 0x20
  else if 0xE0 ≤ c ∧ c ≤ 0xFE ∧ c ≠ 0xF7 then c - 0x20
  else c

/-- The length of the string at `p`, which has at most `n` bytes. -/
def cstringLen (b : Buf) (p : Nat) : Nat → Nat
  | 0 => 0
  | n + 1 => if b p = 0 then 0 else cstringLen b (p + 1) n + 1

def bytes (b : Buf) (p n : Nat) : List UInt8 := (List.range n).map fun i => b (p + i)

theorem cstringLen_le (b : Buf) (p k : Nat) : cstringLen b p k ≤ k := by
  induction k generalizing p with
  | zero => exact Nat.le_refl 0
  | succ k ih =>
    rw [cstringLen]
    split_ifs
    · exact Nat.zero_le _
    · exact Nat.succ_le_succ (ih (p + 1))

theorem length_bytes (b : Buf) (p k : Nat) : (bytes b p k).length = k := by
  rw [bytes, List.length_map, List.length_range]

theorem getD_bytes (b : Buf) (p : Nat) (h : i < n) : (bytes b p n).getD i 0 = b (p + i) := by
  rw [List.getD_eq_getElem _ _ (by rw [length_bytes]; exact h)]
  simp only [bytes, List.getElem_map, List.getElem_range]

theorem bytes_succ (b : Buf) (p k : Nat) : bytes b p (k + 1) = b p :: bytes b (p + 1) k := by
  rw [bytes, List.range_succ_eq_map, List.map_cons, List.map_map]
  congr 1
  apply List.map_congr_left
  intro i _
  show b (p + (i + 1)) = b (p + 1 + i)
  rw [Nat.add_right_comm, Nat.add_assoc]

/-- The comparison of a name with a component of a path, whose length is an `uInt`. -/
def nameEq (fold : UInt8 → UInt8) (a name : List UInt8) : Bool :=
  a.length == u32 name.length && a.map fold == (name.take a.length).map fold

def isSep (c : Char) : Bool := c == '/' || c == '\\'

/-- The bytes of a path up to the next separator. -/
def component (cur : List Char) : List UInt8 :=
  (cur.takeWhile fun c => !isSep c).map fun c => .ofNat c.toNat

/-- A path from its next separator on. -/
def fromSep (cur : List Char) : List Char := cur.dropWhile fun c => !isSep c

/-- What a walk does with the components of a path: the search of a directory, the result for the
last component, the directory that a component before it names, and the result for a path that ends
on a separator. -/
structure Walker (δ ε ρ : Type) where
  lookup : δ → List UInt8 → Io (Except Retcode ε)
  last : ε → ρ
  enter : ε → Option δ
  here : δ → ρ

/-- A round of the path loop, after the search for its component. -/
def Walker.next (k : Walker δ ε ρ) (rest : List Char) :
    Except Retcode ε → (δ × List Char) ⊕ Except Retcode ρ
  | .error ret => .inr (.error ret)
  | .ok x =>
    if rest = [] then .inr (.ok (k.last x))
    else
      match k.enter x with
      | none => .inr (.error .eNoFile)
      | some dir => .inl (dir, rest.tail)

def Walker.round (k : Walker δ ε ρ) (s : δ × List Char) :
    Io ((δ × List Char) ⊕ Except Retcode ρ) :=
  if s.2 = [] then pure (.inr (.ok (k.here s.1)))
  else if component s.2 = [] then pure (.inl (s.1, (fromSep s.2).tail))
  else do
    let x ← k.lookup s.1 (component s.2)
    pure (k.next (fromSep s.2) x)

def Walker.walkPath (k : Walker δ ε ρ) (root : δ) (path : List Char) : Io (Except Retcode ρ) :=
  .loop k.round (root, path.dropWhile isSep)

theorem length_fromSep_le (cur : List Char) : (fromSep cur).length ≤ cur.length :=
  (List.dropWhile_sublist _).length_le

theorem length_tail_fromSep_lt (h : cur ≠ []) : (fromSep cur).tail.length < cur.length := by
  have hle := length_fromSep_le cur
  have hpos := List.length_pos_iff.2 h
  rw [List.length_tail]
  omega

theorem Walker.walkPath_total (k : Walker δ ε ρ) (h : ∀ dir name, Prog.Total (k.lookup dir name))
    (root : δ) (path : List Char) : Prog.Total (k.walkPath root path) := by
  apply Prog.Total.loop (fun s => s.2.length)
  intro s
  rw [round]
  split_ifs with hend hempty
  · exact Prog.Yields.pure trivial
  · exact Prog.Yields.pure ⟨trivial, length_tail_fromSep_lt hend⟩
  · apply Prog.Yields.bind (h s.1 (component s.2))
    intro x _
    apply Prog.Yields.pure
    cases x with
    | error ret => exact trivial
    | ok x =>
      rw [next]
      split_ifs
      · exact trivial
      · cases k.enter x with
        | none => exact trivial
        | some dir => exact ⟨trivial, length_tail_fromSep_lt hend⟩

/-- The bytes of a file that have been read. -/
structure Copied where
  written : Nat
  out : Buf

/-- `memcpy` of the part of a block that belongs to a file of `byteSize` bytes. -/
def Copied.append (c : Copied) (byteSize size : Nat) (dblk : Buf) : Copied where
  written := c.written + min (byteSize - c.written) size
  out := c.out.copy c.written dblk 0 (min (byteSize - c.written) size)

/-- Blocks of a file that follow each other, and the key of what comes after them. -/
structure Extent where
  first : Nat
  blocks : Nat
  next : Nat

/-- A round of the loop over the blocks of an extent, with the index of the block. -/
def extentRound (d : Disk) (stack : Buf) (partLoc byteSize : Nat) (x : Extent)
    (s : Nat × Copied) : Io ((Nat × Copied) ⊕ (Retcode × Copied)) :=
  if s.1 < x.blocks ∧ s.2.written < byteSize then do
    let (ret, dblk) ← readBlock d partLoc (u32 (x.first + s.1)) stack
    pure (if ret ≠ .noError then .inr (ret, s.2)
      else .inl (s.1 + 1, s.2.append byteSize bsize dblk))
  else pure (.inr (.noError, s.2))

def readExtent (d : Disk) (stack : Buf) (partLoc byteSize : Nat) (x : Extent) (c : Copied) :
    Io (Retcode × Copied) :=
  .loop (extentRound d stack partLoc byteSize x) (0, c)

/-- The variables of the loop over the extents of a file. -/
structure Chain where
  key : Nat
  guard : Nat
  copied : Copied

/-- A round of the extent loop, with the extent of its key. -/
def chainNext (d : Disk) (stack : Buf) (partLoc byteSize : Nat) (s : Chain) :
    Except Retcode Extent → Io (Chain ⊕ (Retcode × Copied))
  | .error ret => pure (.inr (ret, s.copied))
  | .ok x =>
    if x.blocks = 0 then pure (.inr (.noError, s.copied))
    else do
      let (ret, c) ← readExtent d stack partLoc byteSize x s.copied
      pure (if ret ≠ .noError then .inr (ret, c) else .inl ⟨x.next, s.guard + 1, c⟩)

def chainRound (d : Disk) (stack : Buf) (partLoc byteSize : Nat)
    (lookup : Nat → Io (Except Retcode Extent)) (s : Chain) : Io (Chain ⊕ (Retcode × Copied)) :=
  if s.copied.written < byteSize ∧ s.key ≠ 0 then
    if 65536 < s.guard + 1 then pure (.inr (.eReadError, s.copied))
    else do
      let x ← lookup s.key
      chainNext d stack partLoc byteSize s x
  else pure (.inr (.noError, s.copied))

/-- The contents of the file whose first extent has the key `first`, read into `out`. -/
def readFile (d : Disk) (stack : Buf) (partLoc : Nat) (lookup : Nat → Io (Except Retcode Extent))
    (first byteSize : Nat) (out : Buf) : Io (Retcode × Copied) :=
  .loop (chainRound d stack partLoc byteSize lookup) ⟨first, 0, 0, out⟩

/-- The reply to `FS_LOAD` once the file has been read. -/
def loaded (q : Call) (ret : Retcode) (c : Copied) : Reply :=
  if ret ≠ .noError then { q.reply ret with retbuf := c.out }
  else { q.reply .rEnd with retbuf := c.out, val := c.written }

theorem readBlock_total (d : Disk) (partLoc blockNum : Nat) (buf : Buf) :
    Prog.Total (readBlock d partLoc blockNum buf) := Prog.Yields.access fun _ => trivial

theorem readExtent_total (d : Disk) (stack : Buf) (partLoc byteSize : Nat) (x : Extent)
    (c : Copied) : Prog.Total (readExtent d stack partLoc byteSize x c) := by
  apply Prog.Total.loop (fun s => x.blocks - s.1)
  intro s
  rw [extentRound]
  split_ifs with h
  · apply Prog.Yields.bind (readBlock_total d _ _ _)
    intro y _
    apply Prog.Yields.pure
    split_ifs
    · exact trivial
    · exact ⟨trivial, Nat.sub_succ_lt_self _ _ h.1⟩
  · exact Prog.Yields.pure trivial

theorem readFile_total {lookup : Nat → Io (Except Retcode Extent)} (d : Disk) (stack : Buf)
    (partLoc first byteSize : Nat) (out : Buf)
    (h : ∀ key, Prog.Total (lookup key)) :
    Prog.Total (readFile d stack partLoc lookup first byteSize out) := by
  apply Prog.Total.loop (fun s => 65536 - s.guard)
  intro s
  rw [chainRound]
  split_ifs with hmore hguard
  · exact Prog.Yields.pure trivial
  · apply Prog.Yields.bind (h s.key)
    intro x _
    cases x with
    | error ret => exact Prog.Yields.pure trivial
    | ok x =>
      rw [chainNext]
      split_ifs
      · exact Prog.Yields.pure trivial
      · apply Prog.Yields.bind (readExtent_total d stack partLoc byteSize x s.copied)
        intro y _
        apply Prog.Yields.pure
        split_ifs
        · exact trivial
        · exact ⟨trivial, Nat.sub_succ_lt_self _ _ (Nat.not_lt.1 hguard)⟩
  · exact Prog.Yields.pure trivial

end Pegasos2.Fs
