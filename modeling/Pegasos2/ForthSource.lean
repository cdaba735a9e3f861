import Pegasos2.ForthMachine

namespace Pegasos2.Forth
open Program Prog
set_option autoImplicit true

mutual

/-- A structured piece of a definition, as its author writes it. -/
inductive Src where
  | skip
  | seq (a b : Src)
  | word (x : Nat)
  | lit (n : Cell)
  /-- `if a then` -/
  | ifThen (a : Src)
  /-- `if a else b then` -/
  | ifElse (a b : Src)
  /-- `begin a until` -/
  | untilLoop (a : Src)
  /-- `begin a again` -/
  | again (a : Src)
  /-- `begin a while b repeat` -/
  | whileLoop (a b : Src)
  /-- `do a loop`, or with `?do` or `+loop` in their places -/
  | doLoop (question plus : Bool) (a : Src)
  /-- `case c endcase` -/
  | caseOf (c : Clauses)
  | leave
  | index
  | outerIndex
  /-- `exit` from within `depth` loops, with as many `unloop` in front of it -/
  | exit (depth : Nat)

/-- The clauses of a `case`, up to the part in front of `endcase`. -/
inductive Clauses where
  | default (a : Src)
  /-- `a of b endof` -/
  | clause (a b : Src) (rest : Clauses)

end

mutual

/-- The bytes of a piece. An offset counts from the place of its own two bytes. -/
@[simp] def Src.code : Src → List UInt8
  | .skip => []
  | .seq a b => a.code ++ b.code
  | .word x => xtokBytes x
  | .lit n => 0x10 :: num32Bytes n
  | .ifThen a => [0x07, 0x14] ++ offsetBytes (a.code.length + 3) ++ a.code ++ [0xB2]
  | .ifElse a b => [0x07, 0x14] ++ offsetBytes (a.code.length + 6) ++ a.code ++
      (0x13 :: offsetBytes (b.code.length + 4)) ++ [0xB2] ++ b.code ++ [0xB2]
  | .untilLoop a => [0x07, 0x01] ++ a.code ++
      ([0x07, 0x14] ++ offsetBytes (-(a.code.length + 2)))
  | .again a => [0x07, 0x01] ++ a.code ++ (0x13 :: offsetBytes (-(a.code.length + 1)))
  | .whileLoop a b => [0x07, 0x01] ++ a.code ++ ([0x07, 0x14] ++ offsetBytes (b.code.length + 6)) ++
      b.code ++ (0x13 :: offsetBytes (-(a.code.length + b.code.length + 5))) ++ [0xB2]
  | .doLoop question plus a => [0x07, if question then 0x18 else 0x17] ++
      offsetBytes (a.code.length + 5) ++ a.code ++
      ((if plus then 0x16 else 0x15) :: offsetBytes (-(a.code.length + 1)))
  | .caseOf c => [0x07, 0x04] ++ c.code
  | .leave => [0x1B]
  | .index => [0x19]
  | .outerIndex => [0x1A]
  | .exit depth => List.replicate depth 0x89 ++ [0x33]

/-- The clauses, with the marker of `endcase` behind them. -/
@[simp] def Clauses.code : Clauses → List UInt8
  | .default a => a.code ++ [0xC5]
  | .clause a b rest => a.code ++ (0x1C :: offsetBytes (b.code.length + 5)) ++ b.code ++
      (0xC6 :: offsetBytes (rest.code.length + 2)) ++ rest.code

end

/-- The parameters of a loop that is running. -/
structure Frame where
  limit : Cell
  index : Cell

/-- How a piece ends. -/
inductive Exit where
  | next
  | leave
  | exit
  | error (ret : Retcode)
  deriving DecidableEq

variable {ε : Type}

def Store.pop (s : Store ε) : (Retcode ⊕ Cell) × Store ε :=
  match s.stack with
  | [] => (.inl .eStackUnderflow, s)
  | c :: st => (.inr c, { s with stack := st })

def Store.push (c : Cell) (s : Store ε) : (Retcode ⊕ Unit) × Store ε :=
  if s.stack.length + 1 ≥ stackSize then (.inl .eStackOverflow, s)
  else (.inr (), { s with stack := c :: s.stack })

/-- Pushes the index of the loop that is `n` loops out. -/
def Store.pushIndex (frames : List Frame) (n : Nat) (s : Store ε) : (Retcode ⊕ Unit) × Store ε :=
  if s.stack.length + 1 ≥ stackSize then (.inl .eStackOverflow, s)
  else
    match frames[n]? with
    | none => (.inl .eRstackUnderflow, s)
    | some f => (.inr (), { s with stack := f.index :: s.stack })

/-- The selector meets the value of a clause. -/
def Store.select (s : Store ε) : (Retcode ⊕ Bool) × Store ε :=
  match s.stack with
  | c :: sel :: st =>
    if c = sel then (.inr true, { s with stack := st })
    else (.inr false, { s with stack := sel :: st })
  | _ => (.inl .eStackUnderflow, s)

/-- A loop is entered, where the return stack has room for it, or is passed over. -/
def Store.enter (question : Bool) (frames : List Frame) (s : Store ε) :
    (Retcode ⊕ Option Frame) × Store ε :=
  match s.stack with
  | index :: limit :: st =>
    if question ∧ index = limit then (.inr none, { s with stack := st })
    else if loopSize * (frames.length + 1) ≥ retStackSize then
      (.inl .eRstackOverflow, if question then { s with stack := st } else s)
    else (.inr (some ⟨limit, index⟩), { s with stack := st })
  | _ => (.inl .eStackUnderflow, s)

/-- The index of the next round, or none after the last one. -/
def Frame.advance (f : Frame) : Option Cell :=
  if (f.index + 1).toInt ≥ f.limit.toInt then none else some (f.index + 1)

def Frame.advanceBy (f : Frame) (delta : Cell) : Option Cell :=
  if delta.toInt > 0 ∧ (f.index + delta).toInt ≥ f.limit.toInt ∨
      delta.toInt < 0 ∧ (f.index + delta).toInt < f.limit.toInt then none
  else some (f.index + delta)

def Store.advance (plus : Bool) (f : Frame) (s : Store ε) : (Retcode ⊕ Option Cell) × Store ε :=
  if plus then
    match s.stack with
    | [] => (.inl .eStackUnderflow, s)
    | delta :: st => (.inr (f.advanceBy delta), { s with stack := st })
  else (.inr f.advance, s)

/-- A step that may end the piece. -/
def attempt (ended : Exit → β) (f : Store ε → (Retcode ⊕ α) × Store ε)
    (rest : α → Prog (Store ε) β) : Prog (Store ε) β := do
  match ← access f with
  | .inl ret => pure (ended (.error ret))
  | .inr a => rest a

/-- Goes on where the piece before did not jump or fail. -/
def after (ended : Exit → β) (p : Prog (Store ε) Exit) (rest : Prog (Store ε) β) :
    Prog (Store ε) β := do
  match ← p with
  | .next => rest
  | x => pure (ended x)

/-- Where the body of a `do` loop ends: `leave` ends the loop alone. -/
def afterBody (p : Prog (Store ε) Exit) (rest : Prog (Store ε) (Cell ⊕ Exit)) :
    Prog (Store ε) (Cell ⊕ Exit) := do
  match ← p with
  | .next => rest
  | .leave => pure (.inr .next)
  | x => pure (.inr x)

/-- A called word works on the data stack and sees the loops of its callers. -/
abbrev Calls (ε : Type) := Nat → List Frame → Prog (Store ε) Retcode

mutual

@[simp] def Src.meaning (calls : Calls ε) : Src → List Frame → Prog (Store ε) Exit
  | .skip, _ => pure .next
  | .seq a b, fs => after id (a.meaning calls fs) (b.meaning calls fs)
  | .word x, fs => do
    let ret ← calls x fs
    pure (if ret = .noError then .next else .error ret)
  | .lit n, _ => attempt id (Store.push n) fun _ => pure .next
  | .ifThen a, fs => attempt id Store.pop fun c =>
    if c = 0 then pure .next else a.meaning calls fs
  | .ifElse a b, fs => attempt id Store.pop fun c =>
    if c = 0 then b.meaning calls fs else a.meaning calls fs
  | .untilLoop a, fs => loop (fun _ => after .inr (a.meaning calls fs) <|
    attempt .inr Store.pop fun c => pure (if c = 0 then .inl () else .inr .next)) ()
  | .again a, fs => loop (fun _ => after .inr (a.meaning calls fs) (pure (.inl ()))) ()
  | .whileLoop a b, fs => loop (fun _ => after .inr (a.meaning calls fs) <|
    attempt .inr Store.pop fun c =>
      if c = 0 then pure (.inr .next)
      else after .inr (b.meaning calls fs) (pure (.inl ()))) ()
  | .doLoop question plus a, fs => attempt id (Store.enter question fs) fun entered =>
    match entered with
    | none => pure .next
    | some f => loop (fun i => afterBody (a.meaning calls (⟨f.limit, i⟩ :: fs)) <|
      attempt .inr (Store.advance plus ⟨f.limit, i⟩) fun i =>
        pure (i.elim (.inr .next) .inl)) f.index
  | .caseOf c, fs => c.meaning calls fs
  | .leave, _ => pure .leave
  | .index, fs => attempt id (Store.pushIndex fs 0) fun _ => pure .next
  | .outerIndex, fs => attempt id (Store.pushIndex fs 1) fun _ => pure .next
  | .exit _, _ => pure .exit

@[simp] def Clauses.meaning (calls : Calls ε) : Clauses → List Frame → Prog (Store ε) Exit
  | .default a, fs => after id (a.meaning calls fs) <| attempt id Store.pop fun _ => pure .next
  | .clause a b rest, fs => after id (a.meaning calls fs) <| attempt id Store.select fun hit =>
    if hit then b.meaning calls fs else rest.meaning calls fs

end

mutual

/-- `leave` stands in a loop, `exit` drops the loops it stands in, and the words are known. -/
@[simp] def Src.Closed (known : Nat → Prop) : Nat → Src → Prop
  | _, .skip => True
  | d, .seq a b => a.Closed known d ∧ b.Closed known d
  | _, .word x => known x
  | _, .lit _ => True
  | d, .ifThen a => a.Closed known d
  | d, .ifElse a b => a.Closed known d ∧ b.Closed known d
  | d, .untilLoop a => a.Closed known d
  | d, .again a => a.Closed known d
  | d, .whileLoop a b => a.Closed known d ∧ b.Closed known d
  | d, .doLoop _ _ a => a.Closed known (d + 1)
  | d, .caseOf c => c.Closed known d
  | d, .leave => 0 < d
  | _, .index => True
  | _, .outerIndex => True
  | d, .exit depth => depth = d

@[simp] def Clauses.Closed (known : Nat → Prop) : Nat → Clauses → Prop
  | d, .default a => a.Closed known d
  | d, .clause a b rest => a.Closed known d ∧ b.Closed known d ∧ rest.Closed known d

end

/-- What a definition that ends so returns: both ways out of it are its end. -/
def Exit.code : Exit → Retcode
  | .error r => r
  | _ => .noError

/-- A definition as a whole. -/
def Src.run (calls : Calls ε) (p : Src) (fs : List Frame) : Prog (Store ε) Retcode := do
  let x ← p.meaning calls fs
  pure x.code

theorem Src.run_iff {p : Src} : Halts (p.run calls fs) s r s' ↔
    ∃ x, Halts (p.meaning calls fs) s x s' ∧ r = x.code := by
  constructor
  · intro h
    obtain ⟨x, s₁, hx, hret⟩ := h.of_bind
    obtain ⟨rfl, rfl⟩ := hret.of_pure
    exact ⟨x, hx, rfl⟩
  · rintro ⟨x, hx, rfl⟩
    exact hx.bind (.pure _ _)

end Pegasos2.Forth
