import Pegasos2.ForthWords
import Pegasos2.Simulation

namespace Pegasos2.Forth
open Program Prog
set_option autoImplicit true

/-- What the words outside the control structures work on. -/
structure Store (ε : Type) where
  stack : List Cell
  env : ε

variable {ε : Type}

def Environ.store (e : Environ ε) : Store ε := ⟨e.stack, e.env⟩

def Environ.withStore (e : Environ ε) (s : Store ε) : Environ ε :=
  { e with stack := s.stack, env := s.env }

/-- A word that works on the data stack and on what lies outside the interpreter: an arithmetic
word, a constant, a variable, a device access. It is no `exit`. -/
structure Prim (ε : Type) where
  run : Store ε → Retcode × Store ε
  noEnd : ∀ s, (run s).1 ≠ .rEnd

inductive Kind (ε : Type) where
  /-- `T_FUNC`, for a function that works on the interpreter itself. -/
  | func (f : Command ε)
  | prim (f : Prim ε)
  /-- `T_FCODE`. -/
  | fcode (code : Int → UInt8) (len : Int)

structure Entry (ε : Type) where
  xtok : Int
  immediate : Bool
  kind : Kind ε

/-- The table of execution tokens. -/
structure Xtoks (ε : Type) where
  entries : Nat → Entry ε
  numxtoks : Nat

/-- The environment, looked at. -/
def environ : Prog (Environ ε) (Environ ε) := access fun e => (e, e)

def setEnviron (f : Environ ε → Environ ε) : Prog (Environ ε) Unit := access fun e => ((), f e)

/-- Runs compiled bytes: `execute` with its calls nested to some depth. -/
abbrev Executes (ε : Type) := (Int → UInt8) → Int → Prog (Environ ε) Retcode

/-- Temporary definitions are executed at once. The bytes are copied before the dictionary is
cut back; without memory for the copy the definition stays as it is. -/
def resolveTempCompile (exec : Executes ε) : Prog (Environ ε) Retcode := do
  let e ← environ
  let len := (e.fbrk : Int) - e.tempbrk
  if !e.iscompiling || !e.istemp || e.stack.length ≠ e.tempsp then pure .noError
  else if !e.malloc len then pure .eOutOfMemory
  else
    setEnviron fun e => { e with iscompiling := false, istemp := false, fbrk := e.tempbrk }
    exec (e.bytesFrom e.tempbrk) len

/-- `f(e)`, up to the end of a tail call. -/
def runCommand (exec : Executes ε) (f : Command ε) : Prog (Environ ε) Retcode := do
  match ← access f with
  | .ret ret => pure ret
  | .resolve => resolveTempCompile exec

def runPrim (f : Prim ε) (e : Environ ε) : Retcode × Environ ε :=
  ((f.run e.store).1, e.withStore (f.run e.store).2)

/-- `T_FCODE`: an immediate word is executed with compiling switched off. -/
def runFcode (exec : Executes ε) (code : Int → UInt8) (len : Int) (immediate : Bool) :
    Prog (Environ ε) Retcode := do
  let e ← environ
  setEnviron fun e => { e with iscompiling := e.iscompiling && !immediate }
  let ret ← exec code len
  setEnviron fun e' => { e' with iscompiling := e.iscompiling }
  pure ret

def runKind (exec : Executes ε) (immediate : Bool) : Kind ε → Prog (Environ ε) Retcode
  | .func f => runCommand exec f
  | .prim f => access (runPrim f)
  | .fcode code len => runFcode exec code len immediate

/-- The words that are not immediate are compiled while a definition is. Left out are the debugger,
the alarms that run between words, the tokenizer, the words of an instance, and the hardware fault
that replaces the result: a primitive word has it in its own. -/
def doEval (exec : Executes ε) (code : Entry ε) (imm : Bool) : Prog (Environ ε) Retcode := do
  let e ← environ
  if e.iscompiling && (imm || !code.immediate) then access (compileFcode code.xtok)
  else runKind exec code.immediate code.kind

/-- `EXEC_XTOK`. -/
def execXtok (T : Xtoks ε) (exec : Executes ε) (x : Int) : Prog (Environ ε) Retcode :=
  if x < 0 ∨ x ≥ T.numxtoks then pure .eIllegalXtok
  else doEval exec (T.entries x.toNat) false

/-- `next_fcode_num`, on the input of the environment. -/
def fetch (e : Environ ε) : Int × Environ ε :=
  ((nextFcodeNum e.input).1, { e with input := (nextFcodeNum e.input).2 })

/-- A round of the loop of `execute`. -/
def executeRound (call : Int → Prog (Environ ε) Retcode) (len : Int) (ret : Retcode) :
    Prog (Environ ε) (Retcode ⊕ Retcode) := do
  let e ← environ
  if e.input.loc < len ∧ ret = .noError then
    let x ← access fetch
    let ret ← call x
    pure (.inl ret)
  else pure (.inr ret)

def execute (call : Int → Prog (Environ ε) Retcode) : Executes ε := fun code len => do
  let saved ← environ
  setEnviron fun e => { e with input := ⟨code, 0⟩ }
  let ret ← loop (executeRound call len) .noError
  setEnviron fun e => { e with input := saved.input }
  pure (if ret = .rEnd then .noError else ret)

/-- `execute` where the C stack has room for `depth` nested calls of it. -/
def executeAt (T : Xtoks ε) : Nat → Executes ε
  | 0 => fun _ _ => never
  | depth + 1 => execute (execXtok T (executeAt T depth))

/-- A word of the text: a number, or the entry that its name is found as. -/
inductive Token (ε : Type) where
  | number (num : Cell)
  | word (ent : Entry ε)

def interpretToken (exec : Executes ε) : Token ε → Prog (Environ ε) Retcode
  | .number num => do
    let e ← environ
    if e.iscompiling then
      let ret ← access (compileFcode 0x10)
      if ret = .noError then access (compileNum32 num) else pure ret
    else access fun e =>
      if e.stack.length + 1 ≥ stackSize then (.eStackOverflow, e) else (.noError, e.push num)
  | .word ent => doEval exec ent false

/-- `do_interpret`, up to the first error. -/
def interpret (exec : Executes ε) : List (Token ε) → Prog (Environ ε) Retcode
  | [] => pure .noError
  | t :: ts => do
    let ret ← interpretToken exec t
    if ret = .noError then interpret exec ts else pure ret

/-- The entry that is being defined: the place and the length of its code. -/
structure NewDef where
  fcode : Nat
  len : Int

def fBcolon (newdef : NewDef) (e : Environ ε) : (Retcode × NewDef) × Environ ε :=
  if e.iscompiling then ((.eCompilationError, newdef), e)
  else
    ((.noError, { newdef with fcode := e.fbrk }),
      { e with iscompiling := true, tempsp := e.stack.length })

/-- `createNewdef` enters the definition into the tables. -/
def fBsemicolon (exec : Executes ε) (createNewdef : NewDef → Retcode) (newdef : NewDef) :
    Prog (Environ ε) (Retcode × NewDef) := do
  let e ← environ
  if !e.iscompiling then pure (.eCompilationError, newdef)
  else if e.istemp then
    let ret ← resolveTempCompile exec
    pure (ret, newdef)
  else
    let ret ← access (compileFcode 0x00)
    if ret ≠ .noError then pure (ret, newdef)
    else
      let e ← environ
      let newdef := { newdef with len := (e.fbrk : Int) - newdef.fcode }
      setEnviron fun e => { e with iscompiling := false }
      pure (createNewdef newdef, newdef)

/-- `: name … ;` -/
def colonDefinition (exec : Executes ε) (createNewdef : NewDef → Retcode) (newdef : NewDef)
    (text : List (Token ε)) : Prog (Environ ε) (Retcode × NewDef) := do
  let opened ← access (fBcolon newdef)
  if opened.1 ≠ .noError then pure opened
  else
    let ret ← interpret exec text
    if ret ≠ .noError then pure (ret, opened.2) else fBsemicolon exec createNewdef opened.2

end Pegasos2.Forth
