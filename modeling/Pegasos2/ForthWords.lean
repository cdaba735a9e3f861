import Pegasos2.Fcodes

namespace Pegasos2.Forth
set_option autoImplicit true

def stackSize : Nat := 128
def retStackSize : Nat := 64
def loopSize : Nat := 3

/-- How a built-in function ends: with a return code, or with `return resolve_temp_compile(e)`. -/
inductive Tail where
  | ret (ret : Retcode)
  | resolve
  deriving DecidableEq, Repr

/-- A built-in function. -/
abbrev Command (ε : Type) := Environ ε → Tail × Environ ε

variable {ε : Type}

namespace Environ

/-- The cell on top. A pop that no `IFCKSP` covers reads 0 below the bottom of the stack. -/
def top (e : Environ ε) : Cell := e.stack.headD 0

def drop (n : Nat) (e : Environ ε) : Environ ε := { e with stack := e.stack.drop n }

def push (c : Cell) (e : Environ ε) : Environ ε := { e with stack := c :: e.stack }

/-- An address is kept in a cell of a stack. -/
def pushp (p : Nat) (e : Environ ε) : Environ ε := e.push (.ofNat 32 p)

/-- `RSTACK(e, n)`. -/
def rat (n : Nat) (e : Environ ε) : Cell := e.rstack.getD n 0

def rdrop (n : Nat) (e : Environ ε) : Environ ε := { e with rstack := e.rstack.drop n }

def rpush (c : Cell) (e : Environ ε) : Environ ε := { e with rstack := c :: e.rstack }

end Environ

/-- `IFCKSP(e, min, max)` in front of the rest of a function. -/
def ifcksp (min max : Nat) (e : Environ ε) (rest : Tail × Environ ε) : Tail × Environ ε :=
  if e.stack.length < min then (.ret .eStackUnderflow, e)
  else if max ≠ 0 ∧ e.stack.length + max ≥ stackSize then (.ret .eStackOverflow, e)
  else rest

/-- `IFCKRETSP(e, min, max)`. -/
def ifckretsp (min max : Nat) (e : Environ ε) (rest : Tail × Environ ε) : Tail × Environ ε :=
  if e.rstack.length < min then (.ret .eRstackUnderflow, e)
  else if max ≠ 0 ∧ e.rstack.length + max ≥ retStackSize then (.ret .eRstackOverflow, e)
  else rest

/-- Goes on only where the last step left no error. -/
def andThen (x : Retcode × Environ ε) (rest : Environ ε → Tail × Environ ε) : Tail × Environ ε :=
  match x with
  | (.noError, e) => rest e
  | (ret, e) => (.ret ret, e)

/-- `PUSHP(e, e->fbrk)`, before the result of the last step is looked at. -/
def pushingBrk (x : Retcode × Environ ε) : Retcode × Environ ε := (x.1, x.2.pushp x.2.fbrk)

/-- `return ret;` -/
def returned (x : Retcode × Environ ε) : Tail × Environ ε := (.ret x.1, x.2)

def beginTempCompile (e : Environ ε) : Environ ε :=
  if e.iscompiling then e
  else
    { e with
      tempsp := e.stack.length
      istemp := true
      tempbrk := e.fbrk
      iscompiling := true }

/-- The backward branch of `compile_branch`. -/
def compileBack (e : Environ ε) : Tail × Environ ε :=
  let back (code : Cell) (brk : Nat) (e : Environ ε) : Tail × Environ ε :=
    if code ≠ 0xB1 then (.ret .eCompilationError, e)
    else andThen (compileOffset ((brk : Int) - e.fbrk) e) fun e => (.resolve, e)
  ifcksp 2 0 e <|
    if e.top ≠ 0xB1 then
      -- the mark is expected below the place of a `while`
      ifcksp 4 2 e <|
        let savcode := e.top
        let e := e.drop 1
        let savbrk := e.top.toNat
        let e := e.drop 1
        let code := e.top
        let e := e.drop 1
        let brk := e.top.toNat
        let e := e.drop 1
        back code brk ((e.pushp savbrk).push savcode)
    else
      let code := e.top
      let e := e.drop 1
      let brk := e.top.toNat
      let e := e.drop 1
      back code brk e

def compileBranch (code o : Int) (e : Environ ε) : Tail × Environ ε :=
  if !e.iscompiling then (.ret .eCompilationError, e)
  else andThen (compileFcode code e) fun e =>
    if o < 0 then compileBack e
    else ifcksp 0 2 e <| returned (compileOffset 0 ((e.pushp e.fbrk).push (.ofInt 32 code)))

/-- `fbrk` stands behind the bytes of a `bbranch` that is still to be patched. -/
def atBbranch (e : Environ ε) : Prop :=
  e.mem (e.fbrk - 3) = 0x13 ∧ e.mem (e.fbrk - 2) = 0 ∧ e.mem (e.fbrk - 1) = 0

instance : DecidablePred (atBbranch (ε := ε)) := fun e => by
  unfold atBbranch
  infer_instance

def resolveBranch (e : Environ ε) : Tail × Environ ε :=
  let resolve (brk : Nat) (e : Environ ε) : Tail × Environ ε :=
    andThen (compileFcode 0xB2 e) fun e => (.resolve, patchOffset brk ((e.fbrk : Int) - brk) e)
  if !e.iscompiling then (.ret .eCompilationError, e)
  else ifcksp 2 0 e <|
    let code := e.top
    let e := e.drop 1
    let brk := e.top.toNat
    let e := e.drop 1
    if atBbranch e then
      -- taken for the `else` part of an `if`, whose branch is the second one on the stack
      ifcksp 2 2 e <|
        let e := e.drop 1
        let savbrk := e.top.toNat
        let e := e.drop 1
        resolve savbrk ((e.pushp brk).push code)
    else resolve brk e

def compileOf (e : Environ ε) : Tail × Environ ε :=
  if !e.iscompiling then (.ret .eCompilationError, e)
  else ifcksp 0 1 e <|
    andThen (pushingBrk (compileFcode 0x1C e)) fun e => returned (compileOffset 0 e)

def compileEndof (e : Environ ε) : Tail × Environ ε :=
  if !e.iscompiling then (.ret .eCompilationError, e)
  else ifcksp 2 1 e <|
    let ofp := e.top.toNat
    andThen (pushingBrk (compileFcode 0xC6 (e.drop 1))) fun e =>
      andThen (compileOffset 0 e) fun e =>
        (.ret .noError, patchOffset ofp ((e.fbrk : Int) - ofp) e)

def compileDo (code : Int) (e : Environ ε) : Tail × Environ ε :=
  ifcksp 0 2 e <|
    andThen (pushingBrk (compileFcode code (beginTempCompile e))) fun e =>
      returned (compileOffset 0 e)

def compileLoop (code : Int) (e : Environ ε) : Tail × Environ ε :=
  if !e.iscompiling then (.ret .eCompilationError, e)
  else ifcksp 1 0 e <|
    andThen (compileFcode code e) fun e =>
      let b := e.top.toNat
      let e := e.drop 1
      let o : Int := (e.fbrk : Int) - b
      andThen (compileOffset (-o + 2) e) fun e => (.resolve, patchOffset b (o + 2) e)

def fIf (e : Environ ε) : Tail × Environ ε := compileBranch 0x714 1 (beginTempCompile e)

/-- The results of the two markers are not looked at. -/
def fElse (e : Environ ε) : Tail × Environ ε :=
  if !e.iscompiling then (.ret .eIfElseThenErr, e)
  else ifcksp 1 1 e <|
    let code := e.top
    let e := e.drop 1
    let b := e.top.toNat
    let e := e.drop 1
    let x := compileOffset 0 ((pushingBrk (compileFcode 0x13 e)).2.push code)
    let e := (compileFcode 0xB2 x.2).2
    (.ret x.1, patchOffset b ((e.fbrk : Int) - b) e)

def fThen (e : Environ ε) : Tail × Environ ε :=
  if !e.iscompiling then (.ret .eIfElseThenErr, e) else resolveBranch e

/-- `b(case)`, which pushes the end of the list of the `endof` branches. -/
def fBcase (e : Environ ε) : Tail × Environ ε :=
  ifcksp 0 2 e <|
    andThen (compileFcode 0x704 (beginTempCompile e)) fun e => (.ret .noError, e.push 0)

/-- The branches of the list are patched to come to the end of the dictionary. -/
def patchEnds (fbrk : Nat) : List Cell → Environ ε → Environ ε
  | [], e => { e with stack := [] }
  | b :: st, e =>
    if b.toNat = 0 then { e with stack := st }
    else patchEnds fbrk st (patchOffset b.toNat ((fbrk : Int) - b.toNat) e)

def fBendcase (e : Environ ε) : Tail × Environ ε :=
  if e.iscompiling then
    ifcksp 1 0 e <|
      andThen (compileFcode 0xC5 e) fun e => (.resolve, patchEnds e.fbrk e.stack e)
  else
    -- no `of` was taken: the selector goes
    ifcksp 1 0 e (.ret .noError, e.drop 1)

def fOf (e : Environ ε) : Tail × Environ ε :=
  if !e.iscompiling then (.ret .eCompilationError, e) else compileOf e

def fEndof (e : Environ ε) : Tail × Environ ε :=
  if !e.iscompiling then (.ret .eCompilationError, e) else compileEndof e

def fEndcase (e : Environ ε) : Tail × Environ ε :=
  if !e.iscompiling then (.ret .eCompilationError, e) else fBendcase e

/-- `b(<mark)`. -/
def fBltmark (e : Environ ε) : Tail × Environ ε :=
  ifcksp 0 2 e <|
    andThen (compileFcode 0x701 (beginTempCompile e)) fun e =>
      (.ret .noError, (e.pushp e.fbrk).push 0xB1)

def fUntil (e : Environ ε) : Tail × Environ ε := compileBranch 0x714 (-1) e

def fAgain (e : Environ ε) : Tail × Environ ε := compileBranch 0x13 (-1) e

def fWhile (e : Environ ε) : Tail × Environ ε := compileBranch 0x714 1 e

def fRepeat (e : Environ ε) : Tail × Environ ε :=
  ifcksp 1 0 e <|
    let e := e.drop 1
    let w := e.top.toNat
    let e := e.drop 1
    let code := e.top
    let e := e.drop 1
    if code ≠ 0xB1 then (.ret .eCompilationError, e)
    else
      let b := e.top.toNat
      let e := e.drop 1
      let e := (compileFcode 0x13 e).2
      andThen (compileOffset ((b : Int) - e.fbrk) e) fun e =>
        let e := (compileFcode 0xB2 e).2
        (.resolve, patchOffset w ((e.fbrk : Int) - w) e)

def fDo (e : Environ ε) : Tail × Environ ε := compileDo 0x717 e

def fQdo (e : Environ ε) : Tail × Environ ε := compileDo 0x718 e

def fLoop (e : Environ ε) : Tail × Environ ε := compileLoop 0x15 e

def fPloop (e : Environ ε) : Tail × Environ ε := compileLoop 0x16 e

/-- `fcode_branch`. -/
def fcodeBranch (o : Int) (e : Environ ε) : Environ ε :=
  { e with input := { e.input with loc := e.input.loc + o } }

/-- Reads from the input of the environment. -/
def reading (read : Input → α × Input) (e : Environ ε) (rest : α → Environ ε → Tail × Environ ε) :
    Tail × Environ ε :=
  rest (read e.input).1 { e with input := (read e.input).2 }

def fEnd (e : Environ ε) : Tail × Environ ε := (.ret .rEnd, e)

def fExit (e : Environ ε) : Tail × Environ ε := (.ret .rEnd, e)

def fBlit (e : Environ ε) : Tail × Environ ε :=
  reading nextFcodeNum32 e fun i e =>
    if e.iscompiling then returned (compileNum32 i (compileFcode 0x10 e).2)
    else ifcksp 0 1 e (.ret .noError, e.push i)

def fBbranch (e : Environ ε) : Tail × Environ ε :=
  reading nextFcodeOffset e fun o e =>
    if e.iscompiling then compileBranch 0x13 o e else (.ret .noError, fcodeBranch (o - 2) e)

def fBeginQbranch (e : Environ ε) : Tail × Environ ε :=
  reading nextFcodeOffset e fun o e =>
    ifcksp 1 0 e <|
      let c := e.top
      let e := e.drop 1
      (.ret .noError, if c = 0 then fcodeBranch (o - 2) e else e)

def fBqbranch (e : Environ ε) : Tail × Environ ε :=
  reading nextFcodeOffset e fun o e => compileBranch 0x714 o (beginTempCompile e)

/-- `begin-mark` and `begin-case`, which do nothing when they are run. -/
def fMarker (e : Environ ε) : Tail × Environ ε := (.ret .noError, e)

def fBgtresolve (e : Environ ε) : Tail × Environ ε :=
  if e.iscompiling then resolveBranch e else (.ret .noError, e)

/-- The loop goes on, or its three cells are dropped. -/
def endLoop (done : Prop) [Decidable done] (branch : Int) (e : Environ ε) : Tail × Environ ε :=
  (.ret .noError, if done then e.rdrop loopSize else fcodeBranch (branch - 2) e)

def fBloop (e : Environ ε) : Tail × Environ ε :=
  reading nextFcodeOffset e fun branch e =>
    if e.iscompiling then compileLoop 0x15 e
    else ifckretsp loopSize 0 e <|
      let e := (e.rdrop 1).rpush (e.rat 0 + 1)
      endLoop ((e.rat 0).toInt ≥ (e.rat 1).toInt) branch e

def fBplusloop (e : Environ ε) : Tail × Environ ε :=
  reading nextFcodeOffset e fun branch e =>
    if e.iscompiling then compileLoop 0x16 e
    else ifckretsp loopSize 0 e <| ifcksp 1 0 e <|
      let delta := e.top
      let e := e.drop 1
      let e := (e.rdrop 1).rpush (e.rat 0 + delta)
      endLoop (delta.toInt > 0 ∧ (e.rat 0).toInt ≥ (e.rat 1).toInt ∨
        delta.toInt < 0 ∧ (e.rat 0).toInt < (e.rat 1).toInt) branch e

/-- Sets up the three cells of a loop. The place behind the loop is kept as an absolute one. -/
def pushLoop (branch : Int) (limit index : Cell) (e : Environ ε) : Environ ε :=
  ((e.rpush (.ofInt 32 (e.input.loc + branch))).rpush limit).rpush index

def fBeginDo (e : Environ ε) : Tail × Environ ε :=
  reading nextFcodeOffset e fun branch e =>
    ifcksp 2 0 e <| ifckretsp 0 loopSize e <|
      let index := e.top
      let e := e.drop 1
      let limit := e.top
      let e := e.drop 1
      (.ret .noError, pushLoop branch limit index e)

def fBeginQdo (e : Environ ε) : Tail × Environ ε :=
  reading nextFcodeOffset e fun branch e =>
    ifcksp 2 0 e <|
      let index := e.top
      let e := e.drop 1
      let limit := e.top
      let e := e.drop 1
      if index = limit then (.ret .noError, fcodeBranch (branch - 2) e)
      else ifckretsp 0 loopSize e (.ret .noError, pushLoop branch limit index e)

/-- `b(do)` and `b(?do)`. -/
def fBdo (code : Int) (e : Environ ε) : Tail × Environ ε :=
  reading nextFcodeOffset e fun _ e => compileDo code (beginTempCompile e)

def fI (e : Environ ε) : Tail × Environ ε :=
  ifcksp 0 1 e <| ifckretsp loopSize 0 e (.ret .noError, e.push (e.rat 0))

def fJ (e : Environ ε) : Tail × Environ ε :=
  ifcksp 0 1 e <| ifckretsp (2 * loopSize) 0 e (.ret .noError, e.push (e.rat loopSize))

def fUnloop (e : Environ ε) : Tail × Environ ε :=
  ifckretsp loopSize 0 e (.ret .noError, e.rdrop loopSize)

def fBleave (e : Environ ε) : Tail × Environ ε :=
  if e.rstack.length = 0 then (.ret .eRstackUnderflow, e)
  else ifckretsp loopSize 0 e <|
    let e := e.rdrop (loopSize - 1)
    let branch := (e.rat 0).toInt
    let e := e.rdrop 1
    (.ret .noError, fcodeBranch (branch - 2 - e.input.loc) e)

def fLeave (e : Environ ε) : Tail × Environ ε :=
  if e.iscompiling then returned (compileFcode 0x1B e) else fBleave e

def fBof (e : Environ ε) : Tail × Environ ε :=
  reading nextFcodeOffset e fun o e =>
    if e.iscompiling then compileOf e
    else ifcksp 2 0 e <|
      if e.top ≠ (e.drop 1).top then (.ret .noError, fcodeBranch (o - 2) (e.drop 1))
      else (.ret .noError, e.drop 2)

def fBendof (e : Environ ε) : Tail × Environ ε :=
  reading nextFcodeOffset e fun o e =>
    if e.iscompiling then compileEndof e else (.ret .noError, fcodeBranch (o - 2) e)

/-- The words of the compiled control structures, as the table of built-in words has them. -/
def controlWords : List (Nat × Command ε) :=
  [(0x00, fEnd), (0x10, fBlit), (0x13, fBbranch), (0x14, fBqbranch), (0x15, fBloop),
    (0x16, fBplusloop), (0x17, fBdo 0x717), (0x18, fBdo 0x718), (0x19, fI), (0x1A, fJ),
    (0x1B, fBleave), (0x1C, fBof), (0x33, fExit), (0x89, fUnloop), (0xB2, fBgtresolve),
    (0xC5, fBendcase), (0xC6, fBendof), (0x701, fMarker), (0x704, fMarker), (0x714, fBeginQbranch),
    (0x717, fBeginDo), (0x718, fBeginQdo)]

end Pegasos2.Forth
