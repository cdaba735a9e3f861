import Mathlib.Data.List.Basic
import Mathlib.Tactic.IntervalCases
import Pegasos2.Bytes
import Pegasos2.Program

namespace Pegasos2.Forth
open Program Prog
set_option autoImplicit true

/-- A cell of the two stacks. Loop limits and conditions are compared as signed numbers. -/
abbrev Cell := BitVec 32

/-- The return codes that the interpreter tests for or makes itself. -/
inductive Retcode where
  | noError
  | rEnd
  | eStackUnderflow
  | eStackOverflow
  | eRstackUnderflow
  | eRstackOverflow
  | eOutOfMemory
  | eIllegalXtok
  | eIllegalFcode
  | eOffsetRange
  | eCompilationError
  | eIfElseThenErr
  | other (code : Nat)
  deriving DecidableEq, Repr

/-- The input of the fcode reader: the bytes seen from the start of the program, and the place of
the next one. -/
structure Input where
  buf : Int → UInt8
  loc : Int

/-- The environment of the interpreter. The tops of the stacks come first, and `env` is what the
words work on besides the data stack. -/
structure Environ (ε : Type) where
  input : Input
  stack : List Cell
  rstack : List Cell
  env : ε
  mem : Buf
  fbrk : Nat
  /-- The end of the dictionary memory, `fmem + MEM_SIZE`. -/
  fend : Nat
  /-- Whether `malloc` finds so many bytes. -/
  malloc : Int → Bool
  fcodes : Nat → Int
  iscompiling : Bool
  istemp : Bool
  tempsp : Nat
  tempbrk : Nat

def numFcodes : Nat := 0x1000

def invalidFcode : Int := -1

variable {ε : Type}

/-- An interpreter with `size` bytes of dictionary memory, before anything is compiled. -/
def Environ.initial (size : Nat) (env : ε) : Environ ε where
  input := ⟨fun _ => 0, 0⟩
  stack := []
  rstack := []
  env := env
  mem := fun _ => 0
  fbrk := 0x1000
  fend := 0x1000 + size
  malloc := fun _ => true
  fcodes := fun _ => invalidFcode
  iscompiling := false
  istemp := false
  tempsp := 0
  tempbrk := 0

/-- `falloc`, with the byte that `compile_byte` stores. -/
def compileByte (b : UInt8) (e : Environ ε) : Retcode × Environ ε :=
  if e.fbrk + 1 ≥ e.fend then (.eOutOfMemory, e)
  else (.noError, { e with mem := e.mem.store e.fbrk b, fbrk := e.fbrk + 1 })

/-- The bytes of one number, up to the first that does not fit. -/
def compileBytes : List UInt8 → Environ ε → Retcode × Environ ε
  | [], e => (.noError, e)
  | b :: bs, e =>
    match compileByte b e with
    | (.noError, e) => compileBytes bs e
    | (ret, e) => (ret, e)

/-- `fcodes` maps an fcode to its execution token, where it has one. -/
def fcodeXtok (e : Environ ε) (code : Int) : Int :=
  if 0 ≤ code ∧ code < numFcodes ∧ e.fcodes code.toNat ≠ invalidFcode then
    e.fcodes code.toNat % 0x80000000
  else code

/-- The bytes that follow the vendor-specific mark. -/
def vendorBytes (code : Nat) : List UInt8 :=
  if code > 0x3FFFFF then
    [.ofNat (code / 2 ^ 24) ||| 0xC0, .ofNat (code / 2 ^ 16), .ofNat (code / 2 ^ 8), .ofNat code]
  else if code > 0x7FFF then
    [.ofNat (code / 2 ^ 16) ||| 0x80, .ofNat (code / 2 ^ 8), .ofNat code]
  else [.ofNat (code / 2 ^ 8), .ofNat code]

def compileFcode (fcode : Int) (e : Environ ε) : Retcode × Environ ε :=
  let code := fcodeXtok e fcode
  if 0 ≤ code ∧ code < 0x100 then compileByte (.ofNat code.toNat) e
  else if 0x100 ≤ code ∧ code < 0x1000 then
    compileBytes [.ofNat (code.toNat / 2 ^ 8), .ofNat code.toNat] e
  else if 0x1000 ≤ code then
    -- the result for the mark is overwritten by that of the byte behind it
    compileBytes (vendorBytes code.toNat) (compileByte 0x06 e).2
  else (.eIllegalFcode, e)

def offsetBytes (o : Int) : List UInt8 := [.ofInt (o / 2 ^ 8), .ofInt o]

def compileOffset (o : Int) (e : Environ ε) : Retcode × Environ ε :=
  if o > 32767 ∨ o < -32768 then (.eOffsetRange, e) else compileBytes (offsetBytes o) e

/-- An offset out of range is reported, which clears the return stack, and stored all the same. -/
def patchOffset (ptr : Nat) (o : Int) (e : Environ ε) : Environ ε :=
  if ptr = 0 then e
  else
    { e with
      mem := (e.mem.store ptr (.ofInt (o / 2 ^ 8))).store (ptr + 1) (.ofInt o)
      rstack := if o > 32767 ∨ o < -32768 then [] else e.rstack }

def num32Bytes (n : Cell) : List UInt8 :=
  [.ofNat (n.toNat / 2 ^ 24), .ofNat (n.toNat / 2 ^ 16), .ofNat (n.toNat / 2 ^ 8), .ofNat n.toNat]

def compileNum32 (n : Cell) (e : Environ ε) : Retcode × Environ ε :=
  compileBytes (num32Bytes n) e

/-- `NEXT_FCODE`, with a spread of one byte and no reader of its own. -/
def nextFcode (i : Input) : Nat × Input := ((i.buf i.loc).toNat, { i with loc := i.loc + 1 })

/-- Puts `n` more bytes behind the number read so far. -/
def nextBytes : Nat → Nat → Input → Nat × Input
  | 0, f, i => (f, i)
  | n + 1, f, i =>
    let (b, i) := nextFcode i
    nextBytes n (f * 2 ^ 8 + b) i

/-- The bits of a number behind the vendor-specific mark. There is no `else` between the two
tests: the number of a four-byte code is tested once more. -/
def nextVendorBits (i : Input) : Nat × Input :=
  let (f, i) := nextFcode i
  let (f, i) := if f &&& 0xC0 = 0xC0 then nextBytes 3 (f &&& 0x3F) i else (f, i)
  if f &&& 0x80 ≠ 0 then nextBytes 2 (f &&& 0x7F) i else nextBytes 1 f i

/-- The bits of the next number. -/
def nextFcodeBits (i : Input) : Nat × Input :=
  let (f, i) := nextFcode i
  if 0x01 ≤ f ∧ f ≤ 0x0F then
    if f = 0x06 then nextVendorBits i else nextBytes 1 f i
  else (f, i)

def nextFcodeNum (i : Input) : Int × Input :=
  let (f, i) := nextFcodeBits i
  ((f : Int).bmod 0x100000000, i)

/-- The offset is kept in a `Short`. -/
def nextFcodeOffset (i : Input) : Int × Input :=
  let (b, i) := nextFcode i
  let (o, i) := nextBytes 1 b i
  ((o : Int).bmod 0x10000, i)

def nextFcodeNum32 (i : Input) : Cell × Input :=
  let (b, i) := nextFcode i
  let (n, i) := nextBytes 3 b i
  (.ofNat 32 n, i)

/-- The bytes stand in the buffer from the place `off` on. -/
def Spells (buf : Int → UInt8) (off : Int) : List UInt8 → Prop
  | [] => True
  | b :: bs => buf off = b ∧ Spells buf (off + 1) bs

theorem spells_append : Spells buf off (bs ++ cs) ↔
    Spells buf off bs ∧ Spells buf (off + bs.length) cs := by
  induction bs generalizing off with
  | nil => simp only [List.nil_append, Spells, List.length_nil, Nat.cast_zero, add_zero, true_and]
  | cons b bs ih =>
    have hoff : off + 1 + (bs.length : Int) = off + ((b :: bs).length : Nat) := by
      rw [List.length_cons]
      omega
    simp only [List.cons_append, Spells, ih, hoff, and_assoc]

/-- The bytes of a number stored at the end of the dictionary. -/
def Environ.emit (e : Environ ε) : List UInt8 → Environ ε
  | [] => e
  | b :: bs => { e with mem := e.mem.store e.fbrk b, fbrk := e.fbrk + 1 }.emit bs

@[simp] theorem Environ.emit_fbrk (e : Environ ε) (bs : List UInt8) :
    (e.emit bs).fbrk = e.fbrk + bs.length := by
  induction bs generalizing e with
  | nil => rfl
  | cons b bs ih =>
    rw [emit, ih, List.length_cons, Nat.add_comm bs.length, ← Nat.add_assoc]

theorem Environ.emit_mem_before (e : Environ ε) (bs : List UInt8) (h : i < e.fbrk) :
    (e.emit bs).mem i = e.mem i := by
  induction bs generalizing e with
  | nil => rfl
  | cons b bs ih =>
    rw [emit, ih _ (Nat.lt_succ_of_lt h)]
    exact Buf.store_ne _ _ (Nat.ne_of_lt h)

/-- The dictionary memory, seen from an address on. -/
def Environ.bytesFrom (e : Environ ε) (base : Nat) (i : Int) : UInt8 := e.mem (base + i).toNat

theorem Environ.emit_spells (e : Environ ε) (bs : List UInt8) (base : Nat)
    (hoff : (base : Int) + off = e.fbrk) : Spells ((e.emit bs).bytesFrom base) off bs := by
  induction bs generalizing e off with
  | nil => trivial
  | cons b bs ih =>
    refine ⟨?_, ih _ ?_⟩
    · rw [emit, bytesFrom, hoff, Int.toNat_natCast, emit_mem_before _ _ (Nat.lt_succ_self _)]
      exact Buf.store_same _ _ _
    · show (base : Int) + (off + 1) = (e.fbrk + 1 : Nat)
      omega

theorem compileByte_emit (b : UInt8) (e : Environ ε) (h : e.fbrk + 1 < e.fend) :
    compileByte b e = (.noError, e.emit [b]) :=
  if_neg (not_le.2 h)

theorem compileBytes_cons (h : e.fbrk + 1 < e.fend) :
    compileBytes (b :: bs) e = compileBytes bs (Environ.emit e [b]) := by
  rw [compileBytes, compileByte_emit b e h]

theorem compileBytes_emit (bs : List UInt8) (e : Environ ε) (h : e.fbrk + bs.length < e.fend) :
    compileBytes bs e = (.noError, e.emit bs) := by
  induction bs generalizing e with
  | nil => rfl
  | cons b bs ih =>
    rw [List.length_cons] at h
    rw [compileBytes_cons (by omega), ih]
    · rfl
    · show e.fbrk + 1 + bs.length < e.fend
      omega

theorem compileBytes_noError (bs : List UInt8) (e : Environ ε)
    (h : (compileBytes bs e).1 = .noError) : compileBytes bs e = (.noError, e.emit bs) := by
  induction bs generalizing e with
  | nil => rfl
  | cons b bs ih =>
    by_cases hfull : e.fbrk + 1 ≥ e.fend
    · rw [compileBytes, compileByte, if_pos hfull] at h
      exact absurd h Retcode.noConfusion
    · rw [compileBytes_cons (not_le.1 hfull)] at h ⊢
      exact ih _ h

/-- The bytes of an execution token. -/
def xtokBytes (code : Nat) : List UInt8 :=
  if code < 0x100 then [.ofNat code]
  else if code < 0x1000 then [.ofNat (code / 2 ^ 8), .ofNat code]
  else 0x06 :: vendorBytes code

theorem xtokBytes_length_pos (code : Nat) : 0 < (xtokBytes code).length := by
  rw [xtokBytes]
  split_ifs <;> exact Nat.succ_pos _

theorem compileFcode_eq (fcode : Int) (e : Environ ε) (h : 0 ≤ fcodeXtok e fcode)
    (hmark : e.fbrk + 1 < e.fend) :
    compileFcode fcode e = compileBytes (xtokBytes (fcodeXtok e fcode).toNat) e := by
  generalize hcode : fcodeXtok e fcode = code at *
  rw [compileFcode, hcode, xtokBytes]
  by_cases h₁ : code < 0x100
  · rw [if_pos ⟨h, h₁⟩, if_pos (by omega), compileBytes_cons hmark, compileByte_emit _ _ hmark]
    rfl
  · by_cases h₂ : code < 0x1000
    · rw [if_neg (by omega), if_pos (by omega), if_neg (by omega), if_pos (by omega)]
    · rw [if_neg (by omega), if_neg (by omega), if_pos (by omega), if_neg (by omega),
        if_neg (by omega), compileBytes_cons hmark, compileByte_emit _ _ hmark]

/-- A number that is compiled at all is a number of the range, and its bytes are stored. -/
theorem compileFcode_noError (h : (compileFcode fcode e).1 = .noError) :
    0 ≤ fcodeXtok e fcode ∧
      compileFcode fcode e = (.noError, Environ.emit e (xtokBytes (fcodeXtok e fcode).toNat)) := by
  by_cases hfull : e.fbrk + 1 ≥ e.fend
  · exfalso
    have hbytes : ∀ b bs, (compileBytes (b :: bs) e).1 = .eOutOfMemory := by
      intro b bs
      rw [compileBytes, compileByte, if_pos hfull]
    have hbyte : ∀ b, compileByte b e = (.eOutOfMemory, e) := fun b => if_pos hfull
    revert h
    simp only [compileFcode, hbyte, vendorBytes]
    split_ifs <;> simp only [hbytes, reduceCtorEq, imp_self]
  · have hmark := not_le.1 hfull
    have hnonneg : 0 ≤ fcodeXtok e fcode := by
      by_contra hneg
      rw [compileFcode, if_neg (by omega), if_neg (by omega), if_neg (by omega)] at h
      exact absurd h Retcode.noConfusion
    rw [compileFcode_eq fcode e hnonneg hmark] at h ⊢
    exact ⟨hnonneg, compileBytes_noError _ _ h⟩

theorem nextBytes_loc (n f : Nat) (i : Input) : (nextBytes n f i).2.loc = i.loc + n := by
  induction n generalizing f i with
  | zero => simp only [nextBytes, Nat.cast_zero, add_zero]
  | succ n ih =>
    rw [nextBytes, ih, nextFcode]
    push_cast
    omega

/-- The numbers that are read back as they were compiled: single bytes below 0x10 are taken for
the first of two, the mark 0x06 for that of a token, and a token of four bytes is read on. -/
def Readable (code : Int) : Prop :=
  code = 0 ∨ 0x10 ≤ code ∧ code < 0x600 ∨ 0x700 ≤ code ∧ code ≤ 0x3FFFFF

instance : DecidablePred Readable := fun code => by
  unfold Readable
  infer_instance

theorem nextFcode_spelled (hb : buf off = b) :
    nextFcode ⟨buf, off⟩ = (b.toNat, ⟨buf, off + 1⟩) :=
  hb ▸ rfl

theorem nextBytes_spelled (n f : Nat) (hs : Spells buf off bs) (hlen : bs.length = n) :
    nextBytes n f ⟨buf, off⟩ =
      (bs.foldl (fun f b => f * 2 ^ 8 + b.toNat) f, ⟨buf, off + bs.length⟩) := by
  subst hlen
  induction bs generalizing off f with
  | nil => simp only [List.length_nil, nextBytes, List.foldl_nil, Nat.cast_zero, add_zero]
  | cons b bs ih =>
    obtain ⟨hb, hs⟩ := hs
    rw [List.length_cons, nextBytes, nextFcode_spelled hb]
    dsimp only
    rw [ih _ hs, List.foldl_cons, Nat.cast_succ, add_assoc, add_comm (1 : Int)]

theorem toNat_or_mark : ∀ x < 0x40, (UInt8.ofNat x ||| 0x80).toNat = x + 0x80 := by decide

theorem land_marked : ∀ x < 0x40, x + 0x80 &&& 0xC0 ≠ 0xC0 ∧ x + 0x80 &&& 0x80 ≠ 0 ∧
    x + 0x80 &&& 0x7F = x := by decide

theorem land_unmarked : ∀ x < 0x80, x &&& 0xC0 ≠ 0xC0 ∧ x &&& 0x80 = 0 := by decide

theorem nextVendorBits_spelled {code : Nat} (hcode : code ≤ 0x3FFFFF)
    (hs : Spells buf off (vendorBytes code)) :
    nextVendorBits ⟨buf, off⟩ = (code, ⟨buf, off + (vendorBytes code).length⟩) := by
  rw [vendorBytes, if_neg (by omega)] at hs ⊢
  rw [nextVendorBits]
  by_cases h : code > 0x7FFF
  · rw [if_pos h] at hs ⊢
    obtain ⟨hb, hs⟩ := hs
    have hhigh : code / 2 ^ 16 < 0x40 := by omega
    obtain ⟨hfour, hthree, hclear⟩ := land_marked _ hhigh
    rw [nextFcode_spelled hb]
    dsimp only
    rw [toNat_or_mark _ hhigh, if_neg hfour]
    dsimp only
    rw [if_pos hthree, hclear, nextBytes_spelled 2 _ hs rfl]
    refine Prod.ext ?_ ?_
    · simp only [List.foldl_cons, List.foldl_nil, UInt8.toNat_ofNat']
      omega
    · simp only [List.length_cons, List.length_nil, Input.mk.injEq, true_and]
      omega
  · rw [if_neg h] at hs ⊢
    obtain ⟨hb, hs⟩ := hs
    have hhigh : (UInt8.ofNat (code / 2 ^ 8)).toNat = code / 2 ^ 8 := by
      rw [UInt8.toNat_ofNat']
      omega
    obtain ⟨hfour, hthree⟩ := land_unmarked (code / 2 ^ 8) (by omega)
    rw [nextFcode_spelled hb]
    dsimp only
    rw [hhigh, if_neg hfour]
    dsimp only
    rw [hthree, if_neg (not_not.2 rfl), nextBytes_spelled 1 _ hs rfl]
    refine Prod.ext ?_ ?_
    · simp only [List.foldl_cons, List.foldl_nil, UInt8.toNat_ofNat']
      omega
    · simp only [List.length_cons, List.length_nil, Input.mk.injEq, true_and]
      omega

theorem nextFcodeBits_xtok {code : Nat} (h : Readable code)
    (hs : Spells buf off (xtokBytes code)) :
    nextFcodeBits ⟨buf, off⟩ = (code, ⟨buf, off + (xtokBytes code).length⟩) := by
  unfold Readable at h
  by_cases h₁ : code < 0x100
  · -- a single byte is taken as it is
    rw [xtokBytes, if_pos h₁] at hs ⊢
    obtain ⟨hb, -⟩ := hs
    rw [nextFcodeBits, nextFcode_spelled hb]
    dsimp only
    rw [UInt8.toNat_ofNat', Nat.mod_eq_of_lt h₁, if_neg (by omega)]
    rfl
  · by_cases h₂ : code < 0x1000
    · rw [xtokBytes, if_neg h₁, if_pos h₂] at hs ⊢
      obtain ⟨hb, hs⟩ := hs
      have hhigh : (UInt8.ofNat (code / 2 ^ 8)).toNat = code / 2 ^ 8 := by
        rw [UInt8.toNat_ofNat']
        omega
      rw [nextFcodeBits, nextFcode_spelled hb]
      dsimp only
      rw [hhigh, if_pos (by omega), if_neg (by omega), nextBytes_spelled 1 _ hs rfl]
      refine Prod.ext ?_ ?_
      · simp only [List.foldl_cons, List.foldl_nil, UInt8.toNat_ofNat']
        omega
      · simp only [List.length_cons, List.length_nil, Input.mk.injEq, true_and]
        omega
    · rw [xtokBytes, if_neg h₁, if_neg h₂] at hs ⊢
      obtain ⟨hmark, hs⟩ := hs
      rw [nextFcodeBits, nextFcode_spelled hmark]
      show nextVendorBits _ = _
      rw [nextVendorBits_spelled (by omega) hs, List.length_cons, Nat.cast_succ, add_assoc,
        add_comm (1 : Int)]

theorem bmod_readable {code : Nat} (h : Readable code) : (code : Int).bmod 0x100000000 = code := by
  unfold Readable at h
  apply Int.bmod_eq_of_le <;> omega

theorem nextFcodeNum_eq (h : nextFcodeBits i = (code, j)) :
    nextFcodeNum i = ((code : Int).bmod 0x100000000, j) := by
  unfold nextFcodeNum
  rw [h]

theorem nextFcodeNum_xtok {code : Nat} (h : Readable code)
    (hs : Spells buf off (xtokBytes code)) :
    nextFcodeNum ⟨buf, off⟩ = ((code : Int), ⟨buf, off + (xtokBytes code).length⟩) := by
  rw [nextFcodeNum_eq (nextFcodeBits_xtok h hs), bmod_readable h]

theorem nextVendorBits_loc (i : Input) :
    i.loc + 2 ≤ (nextVendorBits i).2.loc ∧
      ((i.buf i.loc).toNat &&& 0xC0 = 0xC0 → i.loc + 5 ≤ (nextVendorBits i).2.loc) := by
  have hlast : ∀ f j, j.loc + 1 ≤
      (if f &&& 0x80 ≠ 0 then nextBytes 2 (f &&& 0x7F) j else nextBytes 1 f j).2.loc := by
    intro f j
    split_ifs <;> rw [nextBytes_loc] <;> omega
  rw [nextVendorBits, nextFcode]
  dsimp only
  by_cases hfour : (i.buf i.loc).toNat &&& 0xC0 = 0xC0
  · rw [if_pos hfour]
    refine ⟨le_trans ?_ (hlast _ _), fun _ => le_trans ?_ (hlast _ _)⟩ <;> rw [nextBytes_loc] <;>
      dsimp only <;> omega
  · rw [if_neg hfour]
    refine ⟨le_trans ?_ (hlast _ _), fun h => absurd h hfour⟩
    dsimp only
    omega

theorem nextFcodeBits_escaped (hb : buf off = b) (hlow : 0x01 ≤ b.toNat) (hhigh : b.toNat ≤ 0x0F) :
    off + 2 ≤ (nextFcodeBits ⟨buf, off⟩).2.loc := by
  rw [nextFcodeBits, nextFcode_spelled hb]
  dsimp only
  rw [if_pos ⟨hlow, hhigh⟩]
  by_cases hmark : b.toNat = 0x06
  · rw [if_pos hmark]
    refine le_trans ?_ (nextVendorBits_loc ⟨buf, off + 1⟩).1
    dsimp only
    omega
  · rw [if_neg hmark, nextBytes_loc]
    show off + 2 ≤ off + 1 + (1 : Nat)
    omega

theorem nextFcodeBits_marked (hb : buf off = 0x06) :
    nextFcodeBits ⟨buf, off⟩ = nextVendorBits ⟨buf, off + 1⟩ := by
  rw [nextFcodeBits, nextFcode_spelled hb]
  rfl

theorem land_four (b : UInt8) : (b ||| 0xC0).toNat &&& 0xC0 = 0xC0 := by
  rw [UInt8.toNat_or]
  show (b.toNat ||| 0xC0) &&& 0xC0 = 0xC0
  apply Nat.eq_of_testBit_eq
  intro i
  simp only [Nat.testBit_and, Nat.testBit_or]
  cases b.toNat.testBit i <;> cases Nat.testBit 0xC0 i <;> rfl

/-- A code that is not `Readable` is not read back to its end. -/
theorem nextFcodeNum_unreadable {code : Nat} (h : ¬ Readable code)
    (hs : Spells buf off (xtokBytes code)) :
    (nextFcodeNum ⟨buf, off⟩).2.loc ≠ off + (xtokBytes code).length := by
  show (nextFcodeBits ⟨buf, off⟩).2.loc ≠ _
  unfold Readable at h
  by_cases h₁ : code < 0x100
  · rw [xtokBytes, if_pos h₁] at hs ⊢
    have hval : (UInt8.ofNat code).toNat = code := by
      rw [UInt8.toNat_ofNat', Nat.mod_eq_of_lt h₁]
    have hloc := nextFcodeBits_escaped hs.1 (by omega) (by omega)
    simp only [List.length_cons, List.length_nil]
    omega
  · by_cases h₂ : code < 0x1000
    · rw [xtokBytes, if_neg h₁, if_pos h₂] at hs ⊢
      have hhigh : code / 2 ^ 8 = 6 := by omega
      rw [hhigh] at hs
      have hloc : off + 1 + 2 ≤ _ := (nextVendorBits_loc ⟨buf, off + 1⟩).1
      rw [nextFcodeBits_marked hs.1]
      simp only [List.length_cons, List.length_nil]
      omega
    · rw [xtokBytes, if_neg h₁, if_neg h₂, vendorBytes, if_pos (by omega)] at hs ⊢
      have hfour : (buf (off + 1)).toNat &&& 0xC0 = 0xC0 := by
        rw [hs.2.1]
        exact land_four _
      have hloc : off + 1 + 5 ≤ _ := (nextVendorBits_loc ⟨buf, off + 1⟩).2 hfour
      rw [nextFcodeBits_marked hs.1]
      simp only [List.length_cons, List.length_nil]
      omega

/-- What is compiled is read back, and to its end, for the readable codes and for no others. -/
theorem compileFcode_readable_iff (fcode : Int) (e e' : Environ ε)
    (h : compileFcode fcode e = (.noError, e')) :
    nextFcodeNum ⟨e'.bytesFrom e.fbrk, 0⟩ =
        (fcodeXtok e fcode, ⟨e'.bytesFrom e.fbrk, (e'.fbrk : Int) - e.fbrk⟩) ↔
      Readable (fcodeXtok e fcode) := by
  obtain ⟨hnonneg, heq⟩ := compileFcode_noError (congrArg Prod.fst h)
  obtain rfl : e.emit _ = e' := (Prod.mk.inj (heq.symm.trans h)).2
  obtain ⟨code, hcode⟩ := Int.eq_ofNat_of_zero_le hnonneg
  rw [hcode, Int.toNat_natCast]
  have hs : Spells ((e.emit (xtokBytes code)).bytesFrom e.fbrk) 0 (xtokBytes code) :=
    e.emit_spells (xtokBytes code) e.fbrk (add_zero _)
  have hend : ((e.emit (xtokBytes code)).fbrk : Int) - e.fbrk = 0 + (xtokBytes code).length := by
    rw [Environ.emit_fbrk]
    omega
  rw [hend]
  refine ⟨fun hread => ?_, fun hread => nextFcodeNum_xtok hread hs⟩
  by_contra hunread
  exact nextFcodeNum_unreadable hunread hs (congrArg (fun r => r.2.loc) hread)

theorem compileFcode_readable_iff_marked :
    nextFcodeNum ⟨(compileFcode 0x612 (Environ.initial 64 ())).2.bytesFrom 0x1000, 0⟩ ≠
      (0x612, ⟨(compileFcode 0x612 (Environ.initial 64 ())).2.bytesFrom 0x1000, 2⟩) :=
  fun h => absurd ((compileFcode_readable_iff 0x612 (Environ.initial 64 ()) _ rfl).1 h) (by decide)

@[simp] theorem offsetBytes_length (o : Int) : (offsetBytes o).length = 2 := rfl

@[simp] theorem num32Bytes_length (n : Cell) : (num32Bytes n).length = 4 := rfl

theorem bmod_offset (h : -32768 ≤ o ∧ o ≤ 32767) :
    (((UInt8.ofInt (o / 2 ^ 8)).toNat * 2 ^ 8 + (UInt8.ofInt o).toNat : Nat) : Int).bmod 0x10000 =
      o := by
  have hbyte : ∀ i : Int, ((UInt8.ofInt i).toNat : Int) = i % 256 := by
    intro i
    rw [UInt8.ofInt, UInt8.toNat_ofNat']
    omega
  have hval : (((UInt8.ofInt (o / 2 ^ 8)).toNat * 2 ^ 8 + (UInt8.ofInt o).toNat : Nat) : Int) =
      o % (0x10000 : Nat) := by
    push_cast
    rw [hbyte, hbyte]
    omega
  rw [hval, Int.emod_bmod]
  apply Int.bmod_eq_of_le <;> omega

theorem nextFcodeOffset_eq (hb : nextFcode i = (b, j)) (h : nextBytes 1 b j = (o, k)) :
    nextFcodeOffset i = ((o : Int).bmod 0x10000, k) := by
  unfold nextFcodeOffset
  rw [hb]
  dsimp only
  rw [h]

theorem nextFcodeOffset_spelled (h : -32768 ≤ o ∧ o ≤ 32767)
    (hs : Spells buf off (offsetBytes o)) :
    nextFcodeOffset ⟨buf, off⟩ = (o, ⟨buf, off + 2⟩) := by
  obtain ⟨hb, hs⟩ := hs
  have hread : nextBytes 1 (UInt8.ofInt (o / 2 ^ 8)).toNat ⟨buf, off + 1⟩ =
      ((UInt8.ofInt (o / 2 ^ 8)).toNat * 2 ^ 8 + (UInt8.ofInt o).toNat, ⟨buf, off + 2⟩) := by
    rw [nextBytes_spelled 1 _ hs rfl, List.length_singleton, add_assoc]
    rfl
  rw [nextFcodeOffset_eq (nextFcode_spelled hb) hread, bmod_offset h]

theorem nextFcodeNum32_spelled (n : Cell) (hs : Spells buf off (num32Bytes n)) :
    nextFcodeNum32 ⟨buf, off⟩ = (n, ⟨buf, off + 4⟩) := by
  obtain ⟨hb, hs⟩ := hs
  have hn := n.isLt
  rw [nextFcodeNum32, nextFcode_spelled hb]
  dsimp only
  rw [nextBytes_spelled 3 _ hs rfl]
  refine Prod.ext (BitVec.eq_of_toNat_eq ?_) ?_
  · simp only [List.foldl_cons, List.foldl_nil, UInt8.toNat_ofNat', BitVec.toNat_ofNat]
    omega
  · simp only [List.length_cons, List.length_nil, Input.mk.injEq, true_and]
    omega

end Pegasos2.Forth
