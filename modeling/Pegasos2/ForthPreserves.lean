import Pegasos2.ForthSource

namespace Pegasos2.Forth
open Program Prog
set_option autoImplicit true

variable {ε : Type}

/-- The environment of a running piece: its place in the code and the two stacks. -/
def Environ.at (e : Environ ε) (loc : Int) (s : Store ε) (rs : List Cell) : Environ ε :=
  { e with input := ⟨e.input.buf, loc⟩, stack := s.stack, env := s.env, rstack := rs }

/-- The return stack holds the parameters of the running loops, each pair above the place that
`leave` goes to. -/
inductive Framed : List Cell → List Frame → Prop
  | nil : Framed [] []
  | cons (f : Frame) (brk : Cell) (h : Framed rs fs) :
    Framed (f.index :: f.limit :: brk :: rs) (f :: fs)

theorem Framed.length (h : Framed rs fs) : rs.length = loopSize * fs.length := by
  induction h with
  | nil => rfl
  | cons _ _ _ ih => simp only [List.length_cons, ih, loopSize]; omega

section Rounds
variable {e : Environ ε} {call : Int → Prog (Environ ε) Retcode} {off len : Int} {s : Store ε}
  {rs : List Cell}

theorem fetch_at {x : Nat} (hx : Readable x) (hs : Spells e.input.buf off (xtokBytes x)) :
    fetch (e.at off s rs) = ((x : Int), e.at (off + (xtokBytes x).length) s rs) := by
  have hread : nextFcodeNum (e.at off s rs).input = _ := nextFcodeNum_xtok hx hs
  unfold fetch
  rw [hread]
  rfl

theorem executeRound_iff {x : Nat} (hx : Readable x) (hs : Spells e.input.buf off (xtokBytes x))
    (hoff : off < len) : Halts (executeRound call len .noError) (e.at off s rs) y e' ↔
      ∃ r, y = .inl r ∧ Halts (call x) (e.at (off + (xtokBytes x).length) s rs) r e' := by
  have henv : Halts environ (e.at off s rs) (e.at off s rs) (e.at off s rs) := .access _ _
  have hfetch : Halts (access fetch) (e.at off s rs) (x : Int)
      (e.at (off + (xtokBytes x).length) s rs) := by
    have h := Halts.access fetch (e.at off s rs)
    rwa [fetch_at hx hs] at h
  rw [executeRound, henv.bind_iff]
  show Halts (if off < len ∧ Retcode.noError = .noError then _ else _) _ _ _ ↔ _
  rw [if_pos ⟨hoff, rfl⟩, hfetch.bind_iff]
  constructor
  · intro h
    obtain ⟨r, e₁, hcall, hret⟩ := h.of_bind
    obtain ⟨rfl, rfl⟩ := hret.of_pure
    exact ⟨r, rfl, hcall⟩
  · rintro ⟨r, rfl, hcall⟩
    exact hcall.bind (.pure _ _)

/-- The execution token runs the function, where nothing is compiled. -/
def Runs (call : Int → Prog (Environ ε) Retcode) (x : Nat) (f : Command ε) : Prop :=
  ∀ e e' r, e.iscompiling = false → f e = (.ret r, e') → Halts (call x) e r e'

theorem Runs.round {f : Command ε} (op : Int) (hf : Runs call x f) (hx : Readable x)
    (hs : Spells e.input.buf off (xtokBytes x)) (hoff : off < len) (hcomp : e.iscompiling = false)
    (hop : off + (xtokBytes x).length = op) (hrun : f (e.at op s rs) = (.ret r, e')) :
    Halts (executeRound call len .noError) (e.at off s rs) (.inl r) e' :=
  (executeRound_iff hx hs hoff).2 ⟨r, rfl, hf _ _ _ hcomp (hop ▸ hrun)⟩

theorem Spells.at (h : Spells buf off bs) (hoff : off = off') : Spells buf off' bs := hoff ▸ h

theorem reading_offset {o : Int} (ho : -32768 ≤ o ∧ o ≤ 32767)
    (hs : Spells e.input.buf off (offsetBytes o))
    (rest : Int → Environ ε → Tail × Environ ε) :
    reading nextFcodeOffset (e.at off s rs) rest = rest o (e.at (off + 2) s rs) := by
  have hread : nextFcodeOffset (e.at off s rs).input = _ := nextFcodeOffset_spelled ho hs
  unfold reading
  rw [hread]
  rfl

theorem reading_num32 (n : Cell) (hs : Spells e.input.buf off (num32Bytes n))
    (rest : Cell → Environ ε → Tail × Environ ε) :
    reading nextFcodeNum32 (e.at off s rs) rest = rest n (e.at (off + 4) s rs) := by
  have hread : nextFcodeNum32 (e.at off s rs).input = _ := nextFcodeNum32_spelled n hs
  unfold reading
  rw [hread]
  rfl

end Rounds

/-- What a step of a control structure leaves: its error, or the place and the return stack that
its result leads to. -/
def Environ.outcome (e : Environ ε) (bad : Int) (rs : List Cell) (ok : α → Int × List Cell) :
    (Retcode ⊕ α) × Store ε → Tail × Environ ε
  | (.inl r, s) => (.ret r, e.at bad s rs)
  | (.inr a, s) => (.ret .noError, e.at (ok a).1 s (ok a).2)

section Words
variable {e : Environ ε} {off : Int} {s : Store ε} {rs : List Cell} {o : Int}

theorem fcodeBranch_at : fcodeBranch (o - 2) (e.at (off + 2) s rs) = e.at (off + o) s rs := by
  show e.at (off + 2 + (o - 2)) s rs = _
  rw [show off + 2 + (o - 2) = off + o by omega]

theorem fBlit_at (n : Cell) (hs : Spells e.input.buf off (num32Bytes n))
    (hcomp : e.iscompiling = false) :
    fBlit (e.at off s rs) = e.outcome (off + 4) rs (fun _ => (off + 4, rs)) (s.push n) := by
  rw [fBlit, reading_num32 n hs]
  show (if e.iscompiling then _ else _) = _
  rw [hcomp, if_neg Bool.false_ne_true, Store.push]
  by_cases hfull : s.stack.length + 1 ≥ stackSize
  · rw [if_pos hfull]
    exact (if_neg (Nat.not_lt_zero _)).trans (if_pos ⟨Nat.one_ne_zero, hfull⟩)
  · rw [if_neg hfull]
    exact (if_neg (Nat.not_lt_zero _)).trans (if_neg fun h => hfull h.2)

theorem fBbranch_at (ho : -32768 ≤ o ∧ o ≤ 32767) (hs : Spells e.input.buf off (offsetBytes o))
    (hcomp : e.iscompiling = false) :
    fBbranch (e.at off s rs) = (.ret .noError, e.at (off + o) s rs) := by
  rw [fBbranch, reading_offset ho hs]
  show (if e.iscompiling then _ else _) = _
  rw [hcomp, if_neg Bool.false_ne_true, fcodeBranch_at]

theorem fBendof_at (ho : -32768 ≤ o ∧ o ≤ 32767) (hs : Spells e.input.buf off (offsetBytes o))
    (hcomp : e.iscompiling = false) :
    fBendof (e.at off s rs) = (.ret .noError, e.at (off + o) s rs) := by
  rw [fBendof, reading_offset ho hs]
  show (if e.iscompiling then _ else _) = _
  rw [hcomp, if_neg Bool.false_ne_true, fcodeBranch_at]

theorem fBeginQbranch_at (ho : -32768 ≤ o ∧ o ≤ 32767)
    (hs : Spells e.input.buf off (offsetBytes o)) :
    fBeginQbranch (e.at off s rs) =
      e.outcome (off + 2) rs (fun c => (if c = 0 then off + o else off + 2, rs)) s.pop := by
  rw [fBeginQbranch, reading_offset ho hs]
  obtain ⟨stack, env⟩ := s
  cases stack with
  | nil => rfl
  | cons c st =>
    show (Tail.ret .noError, if c = 0 then fcodeBranch (o - 2) (e.at (off + 2) ⟨st, env⟩ rs)
      else e.at (off + 2) ⟨st, env⟩ rs) = (Tail.ret .noError, e.at (if c = 0 then _ else _) _ rs)
    rw [fcodeBranch_at, apply_ite (fun loc => e.at loc ⟨st, env⟩ rs)]

theorem fBendcase_at (hcomp : e.iscompiling = false) :
    fBendcase (e.at off s rs) = e.outcome off rs (fun _ => (off, rs)) s.pop := by
  rw [fBendcase]
  show (if e.iscompiling then _ else _) = _
  rw [hcomp, if_neg Bool.false_ne_true]
  obtain ⟨stack, env⟩ := s
  cases stack with
  | nil => rfl
  | cons c st => rfl

theorem fBof_at (ho : -32768 ≤ o ∧ o ≤ 32767) (hs : Spells e.input.buf off (offsetBytes o))
    (hcomp : e.iscompiling = false) :
    fBof (e.at off s rs) =
      e.outcome (off + 2) rs (fun hit => (if hit then off + 2 else off + o, rs)) s.select := by
  rw [fBof, reading_offset ho hs]
  show (if e.iscompiling then _ else _) = _
  rw [hcomp, if_neg Bool.false_ne_true]
  obtain ⟨stack, env⟩ := s
  match stack with
  | [] => rfl
  | [_] => rfl
  | c :: sel :: st =>
    show (if c ≠ sel then
        (Tail.ret .noError, fcodeBranch (o - 2) (e.at (off + 2) ⟨sel :: st, env⟩ rs))
      else (Tail.ret .noError, e.at (off + 2) ⟨st, env⟩ rs)) = _
    by_cases hsel : c = sel
    · rw [if_neg (not_not.2 hsel)]
      simp only [Store.select, if_pos hsel]
      rfl
    · rw [if_pos hsel, fcodeBranch_at]
      simp only [Store.select, if_neg hsel]
      rfl

theorem ifcksp_push (e' : Environ ε) (he : e'.stack = s.stack)
    (rest : Tail × Environ ε) : ifcksp 0 1 e' rest =
      if s.stack.length + 1 ≥ stackSize then (.ret .eStackOverflow, e') else rest := by
  rw [ifcksp, he, if_neg (Nat.not_lt_zero _)]
  simp only [ne_eq, Nat.one_ne_zero, not_false_eq_true, true_and]

theorem ifckretsp_ok (h : lo ≤ rs.length) (rest : Tail × Environ ε) :
    ifckretsp lo 0 (e.at off s rs) rest = rest :=
  (if_neg (not_lt.2 h)).trans (if_neg fun h => h.1 rfl)

theorem fI_at (h : Framed rs fs) :
    fI (e.at off s rs) = e.outcome off rs (fun _ => (off, rs)) (s.pushIndex fs 0) := by
  rw [fI, ifcksp_push (e.at off s rs) rfl, Store.pushIndex]
  split_ifs
  · rfl
  · cases h with
    | nil => rfl
    | cons _ _ h => exact ifckretsp_ok (Nat.le_add_left 3 _) _

theorem fJ_at (h : Framed rs fs) :
    fJ (e.at off s rs) = e.outcome off rs (fun _ => (off, rs)) (s.pushIndex fs 1) := by
  rw [fJ, ifcksp_push (e.at off s rs) rfl, Store.pushIndex]
  split_ifs
  · rfl
  · cases h with
    | nil => rfl
    | cons _ _ h =>
      cases h with
      | nil => rfl
      | cons _ _ h => exact ifckretsp_ok (Nat.le_add_left 6 _) _

/-- Where entering a loop leads to. -/
def entered (off o : Int) (rs : List Cell) : Option Frame → Int × List Cell
  | none => (off + o, rs)
  | some f => (off + 2, f.index :: f.limit :: .ofInt 32 (off + 2 + o) :: rs)

theorem ifckretsp_room (h : Framed rs fs) (rest : Tail × Environ ε) :
    ifckretsp 0 loopSize (e.at off s rs) rest =
      if loopSize * (fs.length + 1) ≥ retStackSize then (.ret .eRstackOverflow, e.at off s rs)
      else rest := by
  rw [ifckretsp, if_neg (Nat.not_lt_zero _)]
  show (if loopSize ≠ 0 ∧ rs.length + loopSize ≥ retStackSize then _ else _) = _
  rw [h.length, ← Nat.mul_succ]
  simp only [loopSize, ne_eq, OfNat.ofNat_ne_zero, not_false_eq_true, true_and]
  rfl

theorem fBeginDo_at (ho : -32768 ≤ o ∧ o ≤ 32767) (hs : Spells e.input.buf off (offsetBytes o))
    (h : Framed rs fs) :
    fBeginDo (e.at off s rs) = e.outcome (off + 2) rs (entered off o rs) (s.enter false fs) := by
  rw [fBeginDo, reading_offset ho hs]
  obtain ⟨stack, env⟩ := s
  match stack with
  | [] => rfl
  | [_] => rfl
  | index :: limit :: st =>
    rw [ifckretsp_room h]
    simp only [Store.enter, Bool.false_eq_true, false_and, if_false]
    split_ifs
    · rfl
    · rfl

theorem fBeginQdo_at (ho : -32768 ≤ o ∧ o ≤ 32767) (hs : Spells e.input.buf off (offsetBytes o))
    (h : Framed rs fs) :
    fBeginQdo (e.at off s rs) = e.outcome (off + 2) rs (entered off o rs) (s.enter true fs) := by
  rw [fBeginQdo, reading_offset ho hs]
  obtain ⟨stack, env⟩ := s
  match stack with
  | [] => rfl
  | [_] => rfl
  | index :: limit :: st =>
    show (if index = limit then
        (Tail.ret .noError, fcodeBranch (o - 2) (e.at (off + 2) ⟨st, env⟩ rs))
      else ifckretsp 0 loopSize (e.at (off + 2) ⟨st, env⟩ rs) _) = _
    rw [ifckretsp_room h, fcodeBranch_at]
    simp only [Store.enter, true_and, if_true]
    split_ifs
    · rfl
    · rfl
    · rfl

/-- Where the end of a loop leads to. -/
def advanced (off o : Int) (rs : List Cell) (f : Frame) (brk : Cell) : Option Cell → Int × List Cell
  | none => (off + 2, rs)
  | some i => (off + o, i :: f.limit :: brk :: rs)

theorem fBloop_at (ho : -32768 ≤ o ∧ o ≤ 32767) (hs : Spells e.input.buf off (offsetBytes o))
    (hcomp : e.iscompiling = false) :
    fBloop (e.at off s (f.index :: f.limit :: brk :: rs)) =
      e.outcome (off + 2) (f.index :: f.limit :: brk :: rs) (advanced off o rs f brk)
        (s.advance false f) := by
  rw [fBloop, reading_offset ho hs]
  show (if e.iscompiling then _ else _) = _
  rw [hcomp, if_neg Bool.false_ne_true, ifckretsp_ok (Nat.le_add_left 3 _)]
  show (Tail.ret .noError, if (f.index + 1).toInt ≥ f.limit.toInt then e.at (off + 2) s rs
    else fcodeBranch (o - 2) (e.at (off + 2) s ((f.index + 1) :: f.limit :: brk :: rs))) = _
  rw [fcodeBranch_at]
  simp only [Store.advance, Frame.advance, Bool.false_eq_true, if_false]
  split_ifs
  · rfl
  · rfl

theorem fBplusloop_at (ho : -32768 ≤ o ∧ o ≤ 32767) (hs : Spells e.input.buf off (offsetBytes o))
    (hcomp : e.iscompiling = false) :
    fBplusloop (e.at off s (f.index :: f.limit :: brk :: rs)) =
      e.outcome (off + 2) (f.index :: f.limit :: brk :: rs) (advanced off o rs f brk)
        (s.advance true f) := by
  rw [fBplusloop, reading_offset ho hs]
  show (if e.iscompiling then _ else _) = _
  rw [hcomp, if_neg Bool.false_ne_true, ifckretsp_ok (Nat.le_add_left 3 _)]
  obtain ⟨stack, env⟩ := s
  cases stack with
  | nil => rfl
  | cons delta st =>
    show (Tail.ret .noError, if delta.toInt > 0 ∧ (f.index + delta).toInt ≥ f.limit.toInt ∨
        delta.toInt < 0 ∧ (f.index + delta).toInt < f.limit.toInt
      then e.at (off + 2) ⟨st, env⟩ rs
      else fcodeBranch (o - 2)
        (e.at (off + 2) ⟨st, env⟩ ((f.index + delta) :: f.limit :: brk :: rs))) = _
    rw [fcodeBranch_at]
    simp only [Store.advance, Frame.advanceBy, if_true]
    split_ifs
    · rfl
    · rfl

theorem fUnloop_at (h : loopSize ≤ rs.length) :
    fUnloop (e.at off s rs) = (.ret .noError, e.at off s (rs.drop loopSize)) :=
  ifckretsp_ok h _

theorem fBleave_at : fBleave (e.at off s (i :: l :: brk :: rs)) =
    (.ret .noError, e.at (brk.toInt - 2) s rs) := by
  rw [fBleave]
  have hlen : (e.at off s (i :: l :: brk :: rs)).rstack.length ≠ 0 := Nat.succ_ne_zero _
  rw [if_neg hlen, ifckretsp_ok (Nat.le_add_left 3 _)]
  show (Tail.ret .noError, e.at (off + (brk.toInt - 2 - off)) s rs) = _
  rw [show off + (brk.toInt - 2 - off) = brk.toInt - 2 by omega]

end Words

/-- A return code that ends the execution with an error. -/
def Failed (r : Retcode) : Prop := r ≠ .noError ∧ r ≠ .rEnd

instance : DecidablePred Failed := fun r => inferInstanceAs (Decidable (r ≠ .noError ∧ r ≠ .rEnd))

/-- The errors of a step are errors. -/
def Fails (f : Store ε → (Retcode ⊕ α) × Store ε) : Prop :=
  ∀ s r s', f s = (.inl r, s') → Failed r

theorem pop_fails : Fails (Store.pop (ε := ε)) := by
  intro s r s' h
  unfold Store.pop at h
  split at h
  · cases h
    decide
  · cases h

theorem push_fails (c : Cell) : Fails (Store.push (ε := ε) c) := by
  intro s r s' h
  unfold Store.push at h
  split at h
  · cases h
    decide
  · cases h

theorem pushIndex_fails (fs : List Frame) (n : Nat) : Fails (Store.pushIndex (ε := ε) fs n) := by
  intro s r s' h
  unfold Store.pushIndex at h
  split at h
  · cases h
    decide
  · split at h
    · cases h
      decide
    · cases h

theorem select_fails : Fails (Store.select (ε := ε)) := by
  intro s r s' h
  unfold Store.select at h
  split at h
  · split at h <;> cases h
  · cases h
    decide

theorem enter_fails (question : Bool) (fs : List Frame) :
    Fails (Store.enter (ε := ε) question fs) := by
  intro s r s' h
  unfold Store.enter at h
  split at h
  · split at h
    · cases h
    · split at h
      · cases h
        decide
      · cases h
  · cases h
    decide

theorem advance_fails (plus : Bool) (f : Frame) : Fails (Store.advance (ε := ε) plus f) := by
  intro s r s' h
  unfold Store.advance at h
  split at h
  · split at h
    · cases h
      decide
    · cases h
  · cases h

/-- Where the machine stands when a piece has ended. `depth` counts the loops since the start of
the definition. -/
def Lands (e : Environ ε) (fin : Int) (rs : List Cell) (depth : Nat) :
    Exit → Store ε → Retcode → Environ ε → Prop
  | .next, s, r, e' => r = .noError ∧ e' = e.at fin s rs
  | .leave, s, r, e' => 0 < depth ∧ ∃ i l brk rs', rs = i :: l :: brk :: rs' ∧ r = .noError ∧
      e' = e.at (brk.toInt - 2) s rs'
  | .exit, s, r, e' => r = .rEnd ∧ ∃ loc, e' = e.at loc s (rs.drop (loopSize * depth))
  | .error code, s, r, e' => r = code ∧ Failed code ∧ ∃ loc rs', e' = e.at loc s rs'

/-- The execution tokens of the compiled control structures run their functions. -/
structure Controls (call : Int → Prog (Environ ε) Retcode) : Prop where
  end0 : Runs call 0x00 fEnd
  blit : Runs call 0x10 fBlit
  bbranch : Runs call 0x13 fBbranch
  bloop : Runs call 0x15 fBloop
  bplusloop : Runs call 0x16 fBplusloop
  i : Runs call 0x19 fI
  j : Runs call 0x1A fJ
  bleave : Runs call 0x1B fBleave
  bof : Runs call 0x1C fBof
  exit : Runs call 0x33 fExit
  unloop : Runs call 0x89 fUnloop
  bgtresolve : Runs call 0xB2 fBgtresolve
  bendcase : Runs call 0xC5 fBendcase
  bendof : Runs call 0xC6 fBendof
  beginMark : Runs call 0x701 fMarker
  beginCase : Runs call 0x704 fMarker
  beginQbranch : Runs call 0x714 fBeginQbranch
  beginDo : Runs call 0x717 fBeginDo
  beginQdo : Runs call 0x718 fBeginQdo

/-- A program of the interpreter does what `p` means. Where it leaves no error, the place in the
code and the return stack are as before. -/
structure CarriesOut (q : Prog (Environ ε) Retcode) (e : Environ ε) (p : Prog (Store ε) Retcode) :
    Prop where
  comes : ∀ r s, Halts p e.store r s → r ≠ .rEnd ∧ ∃ loc rs, Halts q e r (e.at loc s rs) ∧
    (r = .noError → loc = e.input.loc ∧ rs = e.rstack)
  ends : Ends q e → Ends p e.store

/-- The execution tokens of the known words do what the words mean. -/
structure Serves (call : Int → Prog (Environ ε) Retcode) (calls : Calls ε) (known : Nat → Prop) :
    Prop where
  readable : ∀ x, known x → Readable x
  carries : ∀ x, known x → ∀ e fs, Environ.iscompiling e = false → Framed e.rstack fs →
    CarriesOut (call x) e (calls x fs)

section Pieces
variable {e : Environ ε} {call : Int → Prog (Environ ε) Retcode} {calls : Calls ε}
  {known : Nat → Prop} {off len : Int} {s : Store ε} {rs : List Cell} {fs : List Frame}

theorem attempt_simulates {x : Nat} {cmd : Command ε} {f : Store ε → (Retcode ⊕ α) × Store ε}
    {ok : α → Int × List Cell} {ended : Exit → β} {rest : α → Prog (Store ε) β}
    {Q : β → Store ε → Retcode → Environ ε → Prop} (op : Int) (hrun : Runs call x cmd)
    (hx : Readable x) (hs : Spells e.input.buf off (xtokBytes x)) (hoff : off < len)
    (hcomp : e.iscompiling = false)
    (hop : off + (xtokBytes x).length = op)
    (hcmd : cmd (e.at op s rs) = e.outcome bad rs ok (f s)) (hfail : Fails f)
    (hended : ∀ code s' loc rs', Failed code → Q (ended (.error code)) s' code (e.at loc s' rs'))
    (hok : ∀ a s', f s = (.inr a, s') →
      Halts (executeRound call len .noError) (e.at off s rs) (.inl .noError)
        (e.at (ok a).1 s' (ok a).2) →
      Simulates (executeRound call len) .noError (e.at off s rs) (rest a) s' Q) :
    Simulates (executeRound call len) .noError (e.at off s rs) (attempt ended f rest) s Q := by
  have haccess : Halts (access f) s (f s).1 (f s).2 := .access f s
  cases hf : f s with
  | mk y s' =>
    rw [hf] at hcmd haccess
    refine .bind (.halted haccess ⟨rfl, rfl, rfl, rfl⟩ (Q := fun y' s₁ r e' =>
      y' = y ∧ s₁ = s' ∧ r = .noError ∧ e' = e.at off s rs)) ?_
    intro y' s₁ r e' hstep
    obtain ⟨hy, hs₁, hr, he⟩ := hstep
    rw [hy, hs₁, hr, he]
    cases y with
    | inl code =>
      refine .step (hrun.round op hx hs hoff hcomp hop hcmd) (.pure (hended code s' bad rs ?_))
      exact hfail s code s' hf
    | inr a => exact hok a s' hf (hrun.round op hx hs hoff hcomp hop hcmd)

theorem after_simulates {p : Prog (Store ε) Exit} {ended : Exit → β} {rest : Prog (Store ε) β}
    {Q : β → Store ε → Retcode → Environ ε → Prop}
    (hp : Simulates (executeRound call len) .noError (e.at off s rs) p s (Lands e mid rs depth))
    (hrest : ∀ s', Simulates (executeRound call len) .noError (e.at mid s' rs) rest s' Q)
    (hended : ∀ x s' r e', x ≠ .next → Lands e mid rs depth x s' r e' → Q (ended x) s' r e') :
    Simulates (executeRound call len) .noError (e.at off s rs) (after ended p rest) s Q := by
  refine hp.bind ?_
  intro x s' r e' hland
  cases x with
  | next =>
    obtain ⟨rfl, rfl⟩ := hland
    exact hrest s'
  | leave => exact .pure (hended _ _ _ _ Exit.noConfusion hland)
  | exit => exact .pure (hended _ _ _ _ Exit.noConfusion hland)
  | error code => exact .pure (hended _ _ _ _ Exit.noConfusion hland)

theorem Lands.jump (hx : x ≠ .next) (h : Lands e fin rs depth x s r e') :
    Lands e fin' rs depth x s r e' := by
  cases x with
  | next => exact absurd rfl hx
  | leave => exact h
  | exit => exact h
  | error code => exact h

theorem Lands.fin_eq {p : Prog (Store ε) Exit}
    {body : Retcode → Prog (Environ ε) (Retcode ⊕ Retcode)}
    (h : Simulates body r e' p s (Lands e fin rs depth)) (hfin : fin = fin') :
    Simulates body r e' p s (Lands e fin' rs depth) :=
  hfin ▸ h

theorem then_simulates {p : Prog (Store ε) Exit}
    (hp : Simulates (executeRound call len) .noError (e.at off s rs) p s (Lands e mid rs depth))
    (hround : ∀ s', Halts (executeRound call len .noError) (e.at mid s' rs) (.inl .noError)
      (e.at fin s' rs)) :
    Simulates (executeRound call len) .noError (e.at off s rs) p s (Lands e fin rs depth) := by
  refine hp.further ?_
  intro x s' r e' hland
  by_cases hx : x = .next
  · subst hx
    obtain ⟨rfl, rfl⟩ := hland
    exact ⟨_, _, .next (hround s') .here, rfl, rfl⟩
  · exact ⟨_, _, .here, hland.jump hx⟩

/-- The known words and the room of a definition. -/
structure Fitting (call : Int → Prog (Environ ε) Retcode) (calls : Calls ε) (known : Nat → Prop)
    (e : Environ ε) (len : Int) : Prop where
  controls : Controls call
  serves : Serves call calls known
  running : e.iscompiling = false
  short : len ≤ 0x8000

/-- A piece does in the machine what it means, wherever its code stands. -/
def Carried (call : Int → Prog (Environ ε) Retcode) (e : Environ ε) (len : Int) (depth : Nat)
    (code : List UInt8) (meaning : List Frame → Prog (Store ε) Exit) : Prop :=
  ∀ off s rs fs, 0 ≤ off → off + code.length ≤ len → Spells e.input.buf off code →
    Framed rs fs → depth ≤ fs.length →
    Simulates (executeRound call len) .noError (e.at off s rs) (meaning fs) s
      (Lands e (off + code.length) rs depth)

theorem seq_carried {a b : Src} (ha : Carried call e len depth a.code (a.meaning calls))
    (hb : Carried call e len depth b.code (b.meaning calls)) :
    Carried call e len depth (Src.seq a b).code ((Src.seq a b).meaning calls) := by
  intro off s rs fs hoff hlen hs hfs hdepth
  simp only [Src.code, spells_append, List.length_append] at hlen hs ⊢
  rw [Src.meaning, Nat.cast_add, ← add_assoc]
  exact after_simulates (ha _ s rs fs hoff (by omega) hs.1 hfs hdepth)
    (fun s' => hb _ s' rs fs (by omega) (by omega) hs.2 hfs hdepth) fun x s' r e' hx h => h.jump hx

variable (hF : Fitting call calls known e len)
include hF

theorem word_carried (depth : Nat) (hx : known x) :
    Carried call e len depth (xtokBytes x) ((Src.word x).meaning calls) := by
  intro off s rs fs hoff hlen hs hfs _
  have hread := hF.serves.readable x hx
  have hsize := xtokBytes_length_pos x
  have hpos : off < len := by omega
  have hcarries := hF.serves.carries x hx (e.at (off + (xtokBytes x).length) s rs) fs hF.running hfs
  rw [Src.meaning]
  refine .bind (.round (Q := fun r s' r' e' => r' = r ∧ r ≠ .rEnd ∧ ∃ loc' rs',
    e' = e.at loc' s' rs' ∧ (r = .noError → loc' = off + (xtokBytes x).length ∧ rs' = rs)) ?_ ?_) ?_
  · intro r s' hr
    obtain ⟨hend, loc', rs', hcall, hsame⟩ := hcarries.comes r s' hr
    exact ⟨_, _, (executeRound_iff hread hs hpos).2 ⟨r, rfl, hcall⟩, rfl, hend, loc', rs', rfl,
      hsame⟩
  · rintro ⟨y, e', hround⟩
    obtain ⟨r, -, hcall⟩ := (executeRound_iff hread hs hpos).1 hround
    exact hcarries.ends ⟨r, e', hcall⟩
  · rintro r s' r' e' ⟨rfl, hend, loc', rs', rfl, hsame⟩
    by_cases hr : r' = .noError
    · obtain ⟨rfl, rfl⟩ := hsame hr
      rw [if_pos hr]
      exact .pure ⟨hr, rfl⟩
    · rw [if_neg hr]
      exact .pure ⟨rfl, ⟨hr, hend⟩, loc', rs', rfl⟩

theorem bgtresolve_round (hs : Spells e.input.buf off [0xB2]) (hoff : off < len)
    (hop : off + 1 = op) :
    Halts (executeRound call len .noError) (e.at off s rs) (.inl .noError) (e.at op s rs) := by
  refine hF.controls.bgtresolve.round op (by decide) hs hoff hF.running hop ?_
  show (if e.iscompiling then _ else _) = _
  rw [hF.running, if_neg Bool.false_ne_true]

theorem beginMark_round (hs : Spells e.input.buf off [0x07, 0x01]) (hoff : off < len) :
    Halts (executeRound call len .noError) (e.at off s rs) (.inl .noError) (e.at (off + 2) s rs) :=
  hF.controls.beginMark.round (off + 2) (by decide) hs hoff hF.running rfl rfl

theorem bbranch_round (hs : Spells e.input.buf off (0x13 :: offsetBytes o))
    (ho : -32768 ≤ o ∧ o ≤ 32767) (hoff : off < len) (hop : off + 1 + o = op) :
    Halts (executeRound call len .noError) (e.at off s rs) (.inl .noError) (e.at op s rs) := by
  refine hF.controls.bbranch.round (off + 1) (by decide) ⟨hs.1, trivial⟩ hoff hF.running rfl ?_
  rw [fBbranch_at ho hs.2 hF.running, hop]

theorem ifThen_carried {a : Src} (ha : Carried call e len depth a.code (a.meaning calls)) :
    Carried call e len depth (Src.ifThen a).code ((Src.ifThen a).meaning calls) := by
  intro off s rs fs hoff hlen hs hfs hdepth
  simp only [Src.code, spells_append, List.length_append, List.length_cons, List.length_nil,
    offsetBytes_length] at hlen hs ⊢
  obtain ⟨⟨⟨hbranch, hoffset⟩, hbody⟩, hresolve⟩ := hs
  have hshort := hF.short
  rw [Src.meaning]
  refine attempt_simulates (off + 2) hF.controls.beginQbranch (by decide) hbranch (by omega)
    hF.running rfl (fBeginQbranch_at (by omega) (hoffset.at rfl)) pop_fails
    (fun _ _ _ _ h => ⟨rfl, h, _, _, rfl⟩) ?_
  intro c s' _ hround
  by_cases hc : c = 0
  · rw [if_pos hc] at hround ⊢
    exact .step hround (.pure ⟨rfl, by congr 1; omega⟩)
  · rw [if_neg hc] at hround ⊢
    refine .step hround (then_simulates
      (ha _ s' rs fs (by omega) (by omega) (hbody.at (by omega)) hfs hdepth) fun s' => ?_)
    exact bgtresolve_round hF (hresolve.at (by omega)) (by omega) (by omega)

theorem ifElse_carried {a b : Src} (ha : Carried call e len depth a.code (a.meaning calls))
    (hb : Carried call e len depth b.code (b.meaning calls)) :
    Carried call e len depth (Src.ifElse a b).code ((Src.ifElse a b).meaning calls) := by
  intro off s rs fs hoff hlen hs hfs hdepth
  simp only [Src.code, spells_append, List.length_append, List.length_cons, List.length_nil,
    offsetBytes_length] at hlen hs ⊢
  obtain ⟨⟨⟨⟨⟨⟨hbranch, hoffset⟩, hthen⟩, hjump⟩, hmid⟩, helse⟩, hresolve⟩ := hs
  have hshort := hF.short
  rw [Src.meaning]
  refine attempt_simulates (off + 2) hF.controls.beginQbranch (by decide) hbranch (by omega)
    hF.running rfl (fBeginQbranch_at (by omega) (hoffset.at rfl)) pop_fails
    (fun _ _ _ _ h => ⟨rfl, h, _, _, rfl⟩) ?_
  intro c s' _ hround
  by_cases hc : c = 0
  · rw [if_pos hc] at hround ⊢
    refine .step hround (then_simulates
      (hb _ s' rs fs (by omega) (by omega) (helse.at (by omega)) hfs hdepth) fun s' => ?_)
    exact bgtresolve_round hF (hresolve.at (by omega)) (by omega) (by omega)
  · rw [if_neg hc] at hround ⊢
    refine .step hround (then_simulates
      (ha _ s' rs fs (by omega) (by omega) (hthen.at (by omega)) hfs hdepth) fun s' => ?_)
    exact bbranch_round hF (hjump.at (by omega)) (by omega) (by omega) (by omega)

theorem lit_carried (depth : Nat) (n : Cell) :
    Carried call e len depth (Src.lit n).code ((Src.lit n).meaning calls) := by
  intro off s rs fs hoff hlen hs _ _
  simp only [Src.code, List.length_cons, num32Bytes_length] at hlen hs ⊢
  rw [Src.meaning]
  refine attempt_simulates (off + 1) hF.controls.blit (by decide) ⟨hs.1, trivial⟩ (by omega)
    hF.running rfl (fBlit_at n hs.2 hF.running) (push_fails n)
    (fun _ _ _ _ h => ⟨rfl, h, _, _, rfl⟩) ?_
  intro _ s' _ hround
  exact .step hround (.pure ⟨rfl, by congr 1; omega⟩)

theorem index_carried (depth : Nat) :
    Carried call e len depth Src.index.code (Src.index.meaning calls) := by
  intro off s rs fs hoff hlen hs hfs _
  simp only [Src.code, List.length_cons, List.length_nil] at hlen hs ⊢
  rw [Src.meaning]
  refine attempt_simulates (off + 1) hF.controls.i (by decide) hs (by omega) hF.running rfl
    (fI_at hfs) (pushIndex_fails fs 0) (fun _ _ _ _ h => ⟨rfl, h, _, _, rfl⟩) ?_
  intro _ s' _ hround
  exact .step hround (.pure ⟨rfl, rfl⟩)

theorem outerIndex_carried (depth : Nat) :
    Carried call e len depth Src.outerIndex.code (Src.outerIndex.meaning calls) := by
  intro off s rs fs hoff hlen hs hfs _
  simp only [Src.code, List.length_cons, List.length_nil] at hlen hs ⊢
  rw [Src.meaning]
  refine attempt_simulates (off + 1) hF.controls.j (by decide) hs (by omega) hF.running rfl
    (fJ_at hfs) (pushIndex_fails fs 1) (fun _ _ _ _ h => ⟨rfl, h, _, _, rfl⟩) ?_
  intro _ s' _ hround
  exact .step hround (.pure ⟨rfl, rfl⟩)

theorem leave_carried (hdepth : 0 < depth) :
    Carried call e len depth Src.leave.code (Src.leave.meaning calls) := by
  intro off s rs fs hoff hlen hs hfs hle
  simp only [Src.code, List.length_cons, List.length_nil] at hlen hs ⊢
  rw [Src.meaning]
  cases hfs with
  | nil => exact absurd hle (not_le.2 hdepth)
  | cons f brk h =>
    refine .step ?_ (.pure ⟨hdepth, _, _, _, _, rfl, rfl, rfl⟩)
    exact hF.controls.bleave.round (off + 1) (by decide) hs (by omega) hF.running rfl fBleave_at

theorem unloop_comes (n : Nat) (hlen : off + n < len)
    (hs : Spells e.input.buf off (List.replicate n 0x89)) (hroom : loopSize * n ≤ rs.length) :
    Comes (executeRound call len) .noError (e.at off s rs) .noError
      (e.at (off + n) s (rs.drop (loopSize * n))) := by
  induction n generalizing off rs with
  | zero =>
    rw [Nat.cast_zero, add_zero]
    exact .here
  | succ n ih =>
    rw [Nat.mul_succ] at hroom ⊢
    have hword : fUnloop (e.at (off + 1) s rs) = _ := fUnloop_at (by omega)
    have hround : Halts (executeRound call len .noError) _ _ _ :=
      hF.controls.unloop.round (off + 1) (by decide) ⟨hs.1, trivial⟩ (by omega) hF.running rfl hword
    have hleft : loopSize * n ≤ (rs.drop loopSize).length := by
      rw [List.length_drop]
      omega
    have hrest := ih (by omega) hs.2 hleft
    rw [List.drop_drop, Nat.add_comm loopSize] at hrest
    rw [show off + ((n + 1 : Nat) : Int) = off + 1 + n by omega]
    exact .next hround hrest

theorem exit_carried (depth : Nat) :
    Carried call e len depth (Src.exit depth).code ((Src.exit depth).meaning calls) := by
  intro off s rs fs hoff hlen hs hfs hle
  have hroom : loopSize * depth ≤ rs.length := by
    rw [hfs.length]
    exact Nat.mul_le_mul_left _ hle
  simp only [Src.code, spells_append, List.length_append, List.length_replicate, List.length_cons,
    List.length_nil] at hlen hs ⊢
  rw [Src.meaning]
  refine .come (unloop_comes hF depth (by omega) hs.1 hroom)
    (.step ?_ (.pure ⟨rfl, off + depth + 1, rfl⟩))
  exact hF.controls.exit.round (off + depth + 1) (by decide) hs.2 (by omega) hF.running rfl rfl

/-- The start of a `begin` loop, behind its marker. -/
def AtStart (e : Environ ε) (start : Int) (rs : List Cell) : Unit → Store ε → Retcode →
    Environ ε → Prop :=
  fun _ s r e' => r = .noError ∧ e' = e.at start s rs

theorem untilLoop_carried {a : Src} (ha : Carried call e len depth a.code (a.meaning calls)) :
    Carried call e len depth (Src.untilLoop a).code ((Src.untilLoop a).meaning calls) := by
  intro off s rs fs hoff hlen hs hfs hdepth
  simp only [Src.code, spells_append, List.length_append, List.length_cons, List.length_nil,
    offsetBytes_length] at hlen hs ⊢
  obtain ⟨⟨hmark, hbody⟩, hbranch, hoffset⟩ := hs
  have hshort := hF.short
  rw [Src.meaning]
  refine .step (beginMark_round hF hmark (by omega))
    (.loop (AtStart e (off + 2) rs) ?_ ⟨rfl, rfl⟩)
  rintro - s r e' ⟨rfl, rfl⟩
  refine after_simulates (ha _ s rs fs (by omega) (by omega) (hbody.at (by omega)) hfs hdepth)
    (fun s' => ?_) (fun x s' r e' hx h => h.jump hx)
  refine attempt_simulates (off + a.code.length + 4) hF.controls.beginQbranch (by decide)
    (hbranch.at (by omega)) (by omega) hF.running ?_
    (fBeginQbranch_at (by omega) (hoffset.at (by omega))) pop_fails
    (fun _ _ _ _ h => ⟨rfl, h, _, _, rfl⟩) ?_
  · show off + 2 + a.code.length + 2 = _
    omega
  · intro c s' _ hround
    by_cases hc : c = 0
    · rw [if_pos hc] at hround ⊢
      exact .pure ⟨_, _, hround, rfl, by congr 1; omega⟩
    · rw [if_neg hc] at hround ⊢
      exact .step hround (.pure ⟨rfl, by congr 1; omega⟩)

theorem again_carried {a : Src} (ha : Carried call e len depth a.code (a.meaning calls)) :
    Carried call e len depth (Src.again a).code ((Src.again a).meaning calls) := by
  intro off s rs fs hoff hlen hs hfs hdepth
  simp only [Src.code, spells_append, List.length_append, List.length_cons, List.length_nil,
    offsetBytes_length] at hlen hs ⊢
  obtain ⟨⟨hmark, hbody⟩, hjump⟩ := hs
  have hshort := hF.short
  rw [Src.meaning]
  refine .step (beginMark_round hF hmark (by omega))
    (.loop (AtStart e (off + 2) rs) ?_ ⟨rfl, rfl⟩)
  rintro - s r e' ⟨rfl, rfl⟩
  refine after_simulates (ha _ s rs fs (by omega) (by omega) (hbody.at (by omega)) hfs hdepth)
    (fun s' => .pure ⟨_, _, ?_, rfl, rfl⟩) (fun x s' r e' hx h => h.jump hx)
  exact bbranch_round hF (hjump.at (by omega)) (by omega) (by omega) (by omega)

theorem whileLoop_carried {a b : Src} (ha : Carried call e len depth a.code (a.meaning calls))
    (hb : Carried call e len depth b.code (b.meaning calls)) :
    Carried call e len depth (Src.whileLoop a b).code ((Src.whileLoop a b).meaning calls) := by
  intro off s rs fs hoff hlen hs hfs hdepth
  simp only [Src.code, spells_append, List.length_append, List.length_cons, List.length_nil,
    offsetBytes_length] at hlen hs ⊢
  obtain ⟨⟨⟨⟨⟨hmark, htest⟩, hbranch, hoffset⟩, hbody⟩, hjump⟩, hresolve⟩ := hs
  have hshort := hF.short
  rw [Src.meaning]
  refine .step (beginMark_round hF hmark (by omega))
    (.loop (AtStart e (off + 2) rs) ?_ ⟨rfl, rfl⟩)
  rintro - s r e' ⟨rfl, rfl⟩
  refine after_simulates (ha _ s rs fs (by omega) (by omega) (htest.at (by omega)) hfs hdepth)
    (fun s' => ?_) (fun x s' r e' hx h => h.jump hx)
  refine attempt_simulates (off + a.code.length + 4) hF.controls.beginQbranch (by decide)
    (hbranch.at (by omega)) (by omega) hF.running ?_
    (fBeginQbranch_at (by omega) (hoffset.at (by omega))) pop_fails
    (fun _ _ _ _ h => ⟨rfl, h, _, _, rfl⟩) ?_
  · show off + 2 + a.code.length + 2 = _
    omega
  · intro c s' _ hround
    by_cases hc : c = 0
    · rw [if_pos hc] at hround ⊢
      exact .step hround (.pure ⟨rfl, by congr 1; omega⟩)
    · rw [if_neg hc] at hround ⊢
      refine .step hround (after_simulates
        (hb _ s' rs fs (by omega) (by omega) (hbody.at (by omega)) hfs hdepth)
        (fun s' => .pure ⟨_, _, ?_, rfl, rfl⟩) (fun x s' r e' hx h => h.jump hx))
      exact bbranch_round hF (hjump.at (by omega)) (by omega) (by omega) (by omega)

theorem enter_word (question : Bool) : ∃ x cmd, Runs call x cmd ∧ Readable x ∧
    xtokBytes x = [0x07, if question then 0x18 else 0x17] ∧ ∀ off s rs fs o,
      -32768 ≤ o ∧ o ≤ 32767 → Spells e.input.buf off (offsetBytes o) → Framed rs fs →
      cmd (e.at off s rs) = e.outcome (off + 2) rs (entered off o rs) (s.enter question fs) := by
  cases question with
  | false =>
    exact ⟨_, _, hF.controls.beginDo, by decide, rfl, fun _ _ _ _ _ ho hs h => fBeginDo_at ho hs h⟩
  | true =>
    exact ⟨_, _, hF.controls.beginQdo, by decide, rfl,
      fun _ _ _ _ _ ho hs h => fBeginQdo_at ho hs h⟩

theorem advance_word (plus : Bool) : ∃ x cmd, Runs call x cmd ∧ Readable x ∧
    xtokBytes x = [if plus then 0x16 else 0x15] ∧ ∀ off s rs f brk o,
      -32768 ≤ o ∧ o ≤ 32767 → Spells e.input.buf off (offsetBytes o) →
      cmd (e.at off s (f.index :: f.limit :: brk :: rs)) =
        e.outcome (off + 2) (f.index :: f.limit :: brk :: rs) (advanced off o rs f brk)
          (s.advance plus f) := by
  cases plus with
  | false =>
    exact ⟨_, _, hF.controls.bloop, by decide, rfl,
      fun _ _ _ _ _ _ ho hs => fBloop_at ho hs hF.running⟩
  | true =>
    exact ⟨_, _, hF.controls.bplusloop, by decide, rfl,
      fun _ _ _ _ _ _ ho hs => fBplusloop_at ho hs hF.running⟩

theorem doLoop_carried {a : Src} (question plus : Bool)
    (ha : Carried call e len (depth + 1) a.code (a.meaning calls)) :
    Carried call e len depth (Src.doLoop question plus a).code
      ((Src.doLoop question plus a).meaning calls) := by
  intro off s rs fs hoff hlen hs hfs hdepth
  simp only [Src.code, spells_append, List.length_append, List.length_cons, List.length_nil,
    offsetBytes_length] at hlen hs ⊢
  obtain ⟨⟨⟨henter, hoffset⟩, hbody⟩, hadvance, hback⟩ := hs
  have hshort := hF.short
  obtain ⟨x, cmd, hrun, hx, hbytes, hcmd⟩ := enter_word hF question
  obtain ⟨y, cmd', hrun', hy, hbytes', hcmd'⟩ := advance_word hF plus
  rw [Src.meaning]
  refine attempt_simulates (off + 2) hrun hx (hbytes ▸ henter) (by omega) hF.running
    (by rw [hbytes]; rfl) (hcmd _ _ _ fs _ (by omega) (hoffset.at rfl) hfs)
    (enter_fails question fs) (fun _ _ _ _ h => ⟨rfl, h, _, _, rfl⟩) ?_
  intro f s' _ hround
  cases f with
  | none =>
    refine .step hround (.pure ⟨rfl, ?_⟩)
    show e.at (off + 2 + (a.code.length + 5)) s' rs = _
    congr 1
    omega
  | some f =>
    -- the place that `leave` goes to survives in a cell of the return stack
    have hbrk : (BitVec.ofInt 32 (off + 2 + 2 + (a.code.length + 5))).toInt =
        off + 2 + 2 + (a.code.length + 5) := by
      rw [BitVec.toInt_ofInt]
      apply Int.bmod_eq_of_le <;> omega
    generalize hcell : BitVec.ofInt 32 (off + 2 + 2 + (a.code.length + 5)) = brk at hbrk
    refine .step hround (.loop (fun i s r e' => r = .noError ∧
      e' = e.at (off + 4) s (i :: f.limit :: brk :: rs)) ?_ ⟨rfl, ?_⟩)
    · rintro i s r e' ⟨rfl, rfl⟩
      refine (ha (off + 4) s (i :: f.limit :: brk :: rs) (⟨f.limit, i⟩ :: fs) (by omega) (by omega)
        (hbody.at (by omega)) (.cons ⟨f.limit, i⟩ brk hfs) (Nat.succ_le_succ hdepth)).bind ?_
      intro end_ s' r e' hland
      cases end_ with
      | next =>
        obtain ⟨rfl, rfl⟩ := hland
        refine attempt_simulates (off + a.code.length + 5) hrun' hy
          (hbytes' ▸ ⟨Eq.trans (by congr 1; omega) hadvance, trivial⟩) (by omega) hF.running
          (by rw [hbytes', List.length_singleton]; omega)
          (hcmd' _ _ rs ⟨f.limit, i⟩ brk _ (by omega) (hback.at (by omega)))
          (advance_fails plus ⟨f.limit, i⟩) (fun _ _ _ _ h => ⟨rfl, h, _, _, rfl⟩) ?_
        intro next s'' _ hround
        cases next with
        | none =>
          refine .step hround (.pure ⟨rfl, ?_⟩)
          show e.at (off + a.code.length + 5 + 2) s'' rs = _
          congr 1
          omega
        | some i =>
          refine .pure ⟨_, _, hround, rfl, ?_⟩
          show e.at (off + a.code.length + 5 + -(a.code.length + 1)) s'' (i :: f.limit :: _) = _
          congr 1
          omega
      | leave =>
        obtain ⟨-, i', l', brk', rs', heq, rfl, rfl⟩ := hland
        obtain ⟨rfl, rfl, rfl, rfl⟩ : i = i' ∧ f.limit = l' ∧ brk = brk' ∧ rs = rs' := by
          simpa only [List.cons.injEq] using heq
        refine .pure ⟨rfl, ?_⟩
        rw [hbrk]
        congr 1
        omega
      | exit =>
        obtain ⟨rfl, loc, rfl⟩ := hland
        exact .pure ⟨rfl, loc, rfl⟩
      | error code => exact .pure hland
    · show e.at (off + 2 + 2) s' (f.index :: f.limit :: .ofInt 32 _ :: rs) = _
      rw [hcell, add_assoc]
      rfl

theorem default_carried {a : Src} (ha : Carried call e len depth a.code (a.meaning calls)) :
    Carried call e len depth (Clauses.default a).code ((Clauses.default a).meaning calls) := by
  intro off s rs fs hoff hlen hs hfs hdepth
  simp only [Clauses.code, spells_append, List.length_append, List.length_cons,
    List.length_nil] at hlen hs ⊢
  rw [Clauses.meaning]
  refine after_simulates (ha _ s rs fs hoff (by omega) hs.1 hfs hdepth) (fun s' => ?_)
    (fun x s' r e' hx h => h.jump hx)
  refine attempt_simulates (off + a.code.length + 1) hF.controls.bendcase (by decide) hs.2
    (by omega) hF.running rfl (fBendcase_at hF.running) pop_fails
    (fun _ _ _ _ h => ⟨rfl, h, _, _, rfl⟩) ?_
  intro _ s'' _ hround
  exact .step hround (.pure ⟨rfl, by congr 1; omega⟩)

theorem clause_carried {a b : Src} {rest : Clauses}
    (ha : Carried call e len depth a.code (a.meaning calls))
    (hb : Carried call e len depth b.code (b.meaning calls))
    (hrest : Carried call e len depth rest.code (rest.meaning calls)) :
    Carried call e len depth (Clauses.clause a b rest).code
      ((Clauses.clause a b rest).meaning calls) := by
  intro off s rs fs hoff hlen hs hfs hdepth
  simp only [Clauses.code, spells_append, List.length_append, List.length_cons,
    offsetBytes_length] at hlen hs ⊢
  obtain ⟨⟨⟨⟨hvalue, hof, hoffset⟩, hbody⟩, hendof, hjump⟩, hmore⟩ := hs
  have hshort := hF.short
  rw [Clauses.meaning]
  refine after_simulates (ha _ s rs fs hoff (by omega) hvalue hfs hdepth) (fun s' => ?_)
    (fun x s' r e' hx h => h.jump hx)
  refine attempt_simulates (off + a.code.length + 1) hF.controls.bof (by decide) ⟨hof, trivial⟩
    (by omega) hF.running rfl (fBof_at (by omega) hoffset hF.running) select_fails
    (fun _ _ _ _ h => ⟨rfl, h, _, _, rfl⟩) ?_
  intro hit s'' _ hround
  cases hit with
  | true =>
    refine .step hround (then_simulates
      (hb _ s'' rs fs ?_ ?_ (hbody.at ?_) hfs hdepth) fun s' => ?_)
    · show 0 ≤ off + a.code.length + 1 + 2
      omega
    · show off + a.code.length + 1 + 2 + b.code.length ≤ len
      omega
    · show _ = off + a.code.length + 1 + 2
      omega
    · show Halts _ (e.at (off + a.code.length + 1 + 2 + b.code.length) s' rs) _ _
      refine hF.controls.bendof.round (off + a.code.length + 1 + 2 + b.code.length + 1) (by decide)
        ⟨Eq.trans (by congr 1; omega) hendof, trivial⟩ (by omega) hF.running rfl ?_
      rw [fBendof_at (by omega) (hjump.at (by omega)) hF.running]
      congr 2
      omega
  | false =>
    refine .step hround (Lands.fin_eq (hrest _ s'' rs fs ?_ ?_ (hmore.at ?_) hfs hdepth) ?_)
    · show 0 ≤ off + a.code.length + 1 + (b.code.length + 5)
      omega
    · show off + a.code.length + 1 + (b.code.length + 5) + rest.code.length ≤ len
      omega
    · show _ = off + a.code.length + 1 + (b.code.length + 5)
      omega
    · show off + a.code.length + 1 + (b.code.length + 5) + rest.code.length = _
      omega

theorem caseOf_carried {c : Clauses} (hc : Carried call e len depth c.code (c.meaning calls)) :
    Carried call e len depth (Src.caseOf c).code ((Src.caseOf c).meaning calls) := by
  intro off s rs fs hoff hlen hs hfs hdepth
  simp only [Src.code, spells_append, List.length_append, List.length_cons,
    List.length_nil] at hlen hs ⊢
  rw [Src.meaning]
  refine .step
    (hF.controls.beginCase.round (off + 2) (by decide) hs.1 (by omega) hF.running rfl rfl)
    (Lands.fin_eq (hc _ s rs fs (by omega) (by omega) (hs.2.at rfl) hfs hdepth) (by omega))

end Pieces

variable {call : Int → Prog (Environ ε) Retcode} {calls : Calls ε} {known : Nat → Prop}

mutual

theorem Src.carried (hF : Fitting call calls known e len) (p : Src) (depth : Nat)
    (hp : p.Closed known depth) : Carried call e len depth p.code (p.meaning calls) :=
  match p, hp with
  | .skip, _ => fun off s rs fs _ _ _ _ _ => by
    rw [Src.meaning]
    exact .pure ⟨rfl, by rw [Src.code, List.length_nil, Nat.cast_zero, add_zero]⟩
  | .seq a b, hp => seq_carried (a.carried hF depth hp.1) (b.carried hF depth hp.2)
  | .word _, hp => word_carried hF depth hp
  | .lit n, _ => lit_carried hF depth n
  | .ifThen a, hp => ifThen_carried hF (a.carried hF depth hp)
  | .ifElse a b, hp => ifElse_carried hF (a.carried hF depth hp.1) (b.carried hF depth hp.2)
  | .untilLoop a, hp => untilLoop_carried hF (a.carried hF depth hp)
  | .again a, hp => again_carried hF (a.carried hF depth hp)
  | .whileLoop a b, hp => whileLoop_carried hF (a.carried hF depth hp.1) (b.carried hF depth hp.2)
  | .doLoop question plus a, hp => doLoop_carried hF question plus (a.carried hF (depth + 1) hp)
  | .caseOf c, hp => caseOf_carried hF (c.carried hF depth hp)
  | .leave, hp => leave_carried hF hp
  | .index, _ => index_carried hF depth
  | .outerIndex, _ => outerIndex_carried hF depth
  | .exit _, rfl => exit_carried hF _

theorem Clauses.carried (hF : Fitting call calls known e len) (c : Clauses) (depth : Nat)
    (hc : c.Closed known depth) : Carried call e len depth c.code (c.meaning calls) :=
  match c, hc with
  | .default a, hc => default_carried hF (a.carried hF depth hc)
  | .clause a b rest, hc => clause_carried hF (a.carried hF depth hc.1)
      (b.carried hF depth hc.2.1) (rest.carried hF depth hc.2.2)

end

/-- How a definition ends in the machine. -/
def Closes (e : Environ ε) (rs : List Cell) : Exit → Store ε → Retcode → Environ ε → Prop
  | .error code, s, r, e' => r = code ∧ Failed code ∧ ∃ loc rs', e' = e.at loc s rs'
  | _, s, r, e' => (r = .noError ∨ r = .rEnd) ∧ ∃ loc, e' = e.at loc s rs

theorem Closes.result (h : Closes e rs x s r e') :
    x.code = (if r = .rEnd then .noError else r) ∧ x.code ≠ .rEnd ∧
      ∃ loc rs', e' = e.at loc s rs' ∧ (x.code = .noError → rs' = rs) := by
  have hok : (r = .noError ∨ r = .rEnd) ∧ (∃ loc, e' = e.at loc s rs) →
      Retcode.noError = (if r = .rEnd then .noError else r) ∧ Retcode.noError ≠ .rEnd ∧
        ∃ loc rs', e' = e.at loc s rs' ∧ (Retcode.noError = .noError → rs' = rs) := by
    rintro ⟨hr, loc, rfl⟩
    refine ⟨?_, Retcode.noConfusion, loc, rs, rfl, fun _ => rfl⟩
    obtain rfl | rfl := hr
    · rfl
    · rfl
  cases x with
  | next => exact hok h
  | leave => exact hok h
  | exit => exact hok h
  | error code =>
    obtain ⟨rfl, hcode, loc, rs', rfl⟩ := h
    exact ⟨(if_neg hcode.2).symm, hcode.2, loc, rs', rfl, fun h => absurd h hcode.1⟩

theorem executeRound_done (h : e'.input.loc < len → r ≠ .noError) :
    Halts (executeRound call len r) e' (.inr r) e' := by
  have henv : Halts environ e' e' e' := .access _ _
  rw [executeRound, henv.bind_iff, if_neg fun hc => h hc.1 hc.2]
  exact .pure _ _

/-- The end of a definition's code: none, or the `end0` of `;`. -/
theorem closes_of_lands (hF : Fitting call calls known e len)
    (hlast : len = fin ∨ len = fin + 1 ∧ Spells e.input.buf fin [0x00])
    (h : Lands e fin rs 0 x s r e') : ∃ r' e₂, Comes (executeRound call len) r e' r' e₂ ∧
      Halts (executeRound call len r') e₂ (.inr r') e₂ ∧ Closes e rs x s r' e₂ := by
  cases x with
  | next =>
    obtain ⟨rfl, rfl⟩ := h
    obtain rfl | ⟨rfl, hend⟩ := hlast
    · refine ⟨_, _, .here, executeRound_done fun hlt => ?_, .inl rfl, len, rfl⟩
      exact absurd hlt (lt_irrefl len)
    · have hround : Halts (executeRound call (fin + 1) .noError) (e.at fin s rs) (.inl .rEnd)
          (e.at (fin + 1) s rs) :=
        hF.controls.end0.round (fin + 1) (by decide) hend (Int.lt_succ fin) hF.running rfl rfl
      exact ⟨_, _, .next hround .here, executeRound_done fun _ => Retcode.noConfusion, .inr rfl,
        fin + 1, rfl⟩
  | leave => exact absurd h.1 (lt_irrefl 0)
  | exit =>
    obtain ⟨rfl, loc, rfl⟩ := h
    exact ⟨_, _, .here, executeRound_done fun _ => Retcode.noConfusion, .inr rfl, loc, rfl⟩
  | error code =>
    obtain ⟨rfl, hcode, hplace⟩ := h
    exact ⟨_, _, .here, executeRound_done fun _ => hcode.1, rfl, hcode, hplace⟩

theorem execute_iff : Halts (execute call buf len) e r e' ↔
    ∃ r' e₁, Halts (loop (executeRound call len) .noError) { e with input := ⟨buf, 0⟩ } r' e₁ ∧
      r = (if r' = .rEnd then .noError else r') ∧ e' = { e₁ with input := e.input } := by
  have henv : Halts environ e e e := .access _ _
  have hset : Halts (setEnviron fun e => { e with input := ⟨buf, 0⟩ }) e ()
    { e with input := ⟨buf, 0⟩ } := .access _ _
  rw [execute, henv.bind_iff, hset.bind_iff]
  constructor
  · intro h
    obtain ⟨r', e₁, hloop, h⟩ := h.of_bind
    obtain ⟨_, e₂, hback, h⟩ := h.of_bind
    obtain ⟨-, rfl⟩ := hback.of_access
    obtain ⟨rfl, rfl⟩ := h.of_pure
    exact ⟨r', e₁, hloop, rfl, rfl⟩
  · rintro ⟨r', e₁, hloop, rfl, rfl⟩
    exact hloop.bind (.bind (.access _ _) (.pure _ _))

theorem execute_carries {len : Int} (hC : Controls call) (hS : Serves call calls known)
    (p : Src) (hp : p.Closed known 0) (hshort : len ≤ 0x8000) (hs : Spells buf 0 p.code)
    (hlast : len = p.code.length ∨ len = p.code.length + 1 ∧ Spells buf p.code.length [0x00])
    (e : Environ ε) (hcomp : e.iscompiling = false) (hfs : Framed e.rstack fs) :
    CarriesOut (execute call buf len) e (p.run calls fs) := by
  generalize he : ({ e with input := ⟨buf, 0⟩ } : Environ ε) = e₀
  have hF : Fitting call calls known e₀ len := ⟨hC, hS, he ▸ hcomp, hshort⟩
  have hbuf : e₀.input.buf = buf := he ▸ rfl
  have hsim := (p.carried hF 0 hp 0 e.store e.rstack fs le_rfl (by omega) (hbuf ▸ hs) hfs
    (Nat.zero_le _)).further (R := fun x s r e' => Halts (executeRound call len r) e' (.inr r) e' ∧
      Closes e₀ e.rstack x s r e') fun x s r e' h =>
    closes_of_lands hF (by rwa [hbuf, zero_add]) h
  have hstart : e₀.at 0 e.store e.rstack = { e with input := ⟨buf, 0⟩ } := by
    subst he
    rfl
  rw [hstart] at hsim
  obtain ⟨hfwd, hbwd⟩ := hsim.halts (P := Closes e₀ e.rstack) fun x s r e' h => ⟨r, e', h⟩
  constructor
  · intro r s hrun
    obtain ⟨x, hx, rfl⟩ := Src.run_iff.1 hrun
    obtain ⟨r', e₁, hloop, hclose⟩ := hfwd x s hx
    obtain ⟨hcode, hend, loc, rs', rfl, hrs⟩ := hclose.result
    refine ⟨hend, e.input.loc, rs', execute_iff.2 ⟨r', _, hloop, hcode, ?_⟩, fun h => ⟨rfl, hrs h⟩⟩
    subst he
    rfl
  · rintro ⟨r, e', hexec⟩
    obtain ⟨r', e₁, hloop, -, -⟩ := execute_iff.1 hexec
    obtain ⟨x, s', hx, -⟩ := hbwd r' e₁ hloop
    exact ⟨_, s', Src.run_iff.2 ⟨x, hx, rfl⟩⟩

end Pegasos2.Forth
