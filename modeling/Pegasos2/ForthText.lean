import Pegasos2.ForthCompiler
import Pegasos2.ForthDictionary

namespace Pegasos2.Forth
open Program Prog
set_option autoImplicit true

variable {ε : Type}

/-- A control word in the text: its entry is immediate and has a function. -/
def control (f : Command ε) : Token ε := .word ⟨invalidFcode, true, .func f⟩

mutual

/-- The words of a piece, where `entry` has the words that are compiled. -/
def Src.tokens (entry : Nat → Entry ε) : Src → List (Token ε)
  | .skip => []
  | .seq a b => a.tokens entry ++ b.tokens entry
  | .word x => [.word (entry x)]
  | .lit n => [.number n]
  | .ifThen a => control fIf :: a.tokens entry ++ [control fThen]
  | .ifElse a b => control fIf :: a.tokens entry ++ control fElse :: b.tokens entry ++
      [control fThen]
  | .untilLoop a => control fBltmark :: a.tokens entry ++ [control fUntil]
  | .again a => control fBltmark :: a.tokens entry ++ [control fAgain]
  | .whileLoop a b => control fBltmark :: a.tokens entry ++ control fWhile :: b.tokens entry ++
      [control fRepeat]
  | .doLoop question plus a => control (if question then fQdo else fDo) :: a.tokens entry ++
      [control (if plus then fPloop else fLoop)]
  | .caseOf c => control fBcase :: c.tokens entry
  | .leave => [control fLeave]
  | .index => [.word (entry 0x19)]
  | .outerIndex => [.word (entry 0x1A)]
  | .exit depth => List.replicate depth (.word (entry 0x89)) ++ [.word (entry 0x33)]

def Clauses.tokens (entry : Nat → Entry ε) : Clauses → List (Token ε)
  | .default a => a.tokens entry ++ [control fEndcase]
  | .clause a b rest => a.tokens entry ++ control fOf :: b.tokens entry ++
      control fEndof :: rest.tokens entry

end

/-- The words that are compiled stand for themselves. -/
def Named (known : Nat → Prop) (entry : Nat → Entry ε) : Prop :=
  ∀ x : Nat, x ∈ controlCodes ∨ known x → (entry x).xtok = x ∧ (entry x).immediate = false

mutual

/-- The cells of the data stack that are in use at once while a piece is compiled. -/
def Src.need : Src → Nat
  | .seq a b => max a.need b.need
  | .ifThen a => a.need + 2
  | .ifElse a b => max 3 (max a.need b.need + 2)
  | .untilLoop a => a.need + 2
  | .again a => a.need + 2
  | .whileLoop a b => max 4 (max (a.need + 2) (b.need + 4))
  | .doLoop _ _ a => max 2 (a.need + 1)
  | .caseOf c => max 2 (c.need + 1)
  | _ => 0

def Clauses.need : Clauses → Nat
  | .default a => a.need
  | .clause a b rest => max (max a.need (b.need + 1)) (max 2 (rest.need + 1))

end

mutual

/-- No part in front of a `then` ends in the bytes that `resolve_branch` takes for the branch of an
`else`. -/
def Src.Plain : Src → Prop
  | .seq a b => a.Plain ∧ b.Plain
  | .ifThen a => a.Plain ∧ ¬ EndsInBbranch a.code
  | .ifElse a b => a.Plain ∧ b.Plain ∧ ¬ EndsInBbranch b.code
  | .untilLoop a => a.Plain
  | .again a => a.Plain
  | .whileLoop a b => a.Plain ∧ b.Plain
  | .doLoop _ _ a => a.Plain
  | .caseOf c => c.Plain
  | _ => True

def Clauses.Plain : Clauses → Prop
  | .default a => a.Plain
  | .clause a b rest => a.Plain ∧ b.Plain ∧ rest.Plain

end

section Interpret
variable {exec : Executes ε} {e : Environ ε}

theorem interpret_cons_iff (h : Halts (interpretToken exec t) e .noError e₁) :
    Halts (interpret exec (t :: ts)) e r e' ↔ Halts (interpret exec ts) e₁ r e' := by
  rw [interpret, h.bind_iff, if_pos rfl]

theorem interpret_append_iff (h : Halts (interpret exec ts) e .noError e₁) :
    Halts (interpret exec (ts ++ us)) e r e' ↔ Halts (interpret exec us) e₁ r e' := by
  induction ts generalizing e with
  | nil =>
    obtain ⟨-, rfl⟩ := h.of_pure
    exact Iff.rfl
  | cons t ts ih =>
    rw [interpret] at h
    obtain ⟨r₁, e₂, ht, hrest⟩ := h.of_bind
    by_cases hr : r₁ = .noError
    · subst hr
      rw [if_pos rfl] at hrest
      exact (interpret_cons_iff ht).trans (ih hrest)
    · rw [if_neg hr] at hrest
      exact absurd hrest.of_pure.1.symm hr

theorem interpret_singleton_iff :
    Halts (interpret exec [t]) e r e' ↔ Halts (interpretToken exec t) e r e' := by
  rw [interpret]
  constructor
  · intro h
    obtain ⟨r₁, e₁, ht, hrest⟩ := h.of_bind
    by_cases hr : r₁ = .noError
    · subst hr
      rw [if_pos rfl] at hrest
      obtain ⟨rfl, rfl⟩ := hrest.of_pure
      exact ht
    · rw [if_neg hr] at hrest
      obtain ⟨rfl, rfl⟩ := hrest.of_pure
      exact ht
  · intro h
    refine h.bind ?_
    by_cases hr : r = .noError
    · subst hr
      exact .pure _ _
    · rw [if_neg hr]
      exact .pure _ _

theorem control_iff {f : Command ε} : Halts (interpretToken exec (control f)) e r e' ↔
    Halts (runCommand exec f) e r e' := by
  have henv : Halts environ e e e := .access _ _
  rw [control, interpretToken, doEval, henv.bind_iff, Bool.not_true, Bool.or_false, Bool.and_false,
    if_neg Bool.false_ne_true]
  rfl

theorem control_ret {f : Command ε} (h : f e = (.ret r, e')) :
    Halts (interpretToken exec (control f)) e r e' := by
  have hf : Halts (access f) e (.ret r) e' := .access_eq h
  exact control_iff.2 (hf.bind (.pure _ _))

theorem control_resolve_iff {f : Command ε} (h : f e = (.resolve, e₁)) :
    Halts (interpretToken exec (control f)) e r e' ↔ Halts (resolveTempCompile exec) e₁ r e' := by
  have hf : Halts (access f) e .resolve e₁ := .access_eq h
  rw [control_iff, runCommand, hf.bind_iff]

/-- A temporary definition is not over while the stack holds more than at its start. -/
theorem resolve_deferred (h : e.istemp = true → e.tempsp < e.stack.length) :
    Halts (resolveTempCompile exec) e .noError e := by
  have henv : Halts environ e e e := .access _ _
  rw [resolveTempCompile, henv.bind_iff, if_pos]
  · exact .pure _ _
  · cases htemp : e.istemp with
    | false => rw [Bool.not_false, Bool.or_true, Bool.true_or]
    | true => rw [decide_eq_true (Nat.ne_of_gt (h htemp)), Bool.or_true]

theorem word_compiles {ent : Entry ε} (himm : ent.immediate = false) (hcomp : e.iscompiling = true)
    (h : compileFcode ent.xtok e = (r, e')) :
    Halts (interpretToken exec (.word ent)) e r e' := by
  have henv : Halts environ e e e := .access _ _
  rw [interpretToken, doEval, henv.bind_iff, hcomp, himm,
    if_pos (show (true && (false || !false)) = true from rfl)]
  exact .access_eq h

theorem number_compiles (hcomp : e.iscompiling = true) (h : compileFcode 0x10 e = (.noError, e₁))
    (hnum : compileNum32 n e₁ = (r, e')) : Halts (interpretToken exec (.number n)) e r e' := by
  have henv : Halts environ e e e := .access _ _
  have hmark : Halts (access (compileFcode 0x10)) e .noError e₁ := .access_eq h
  rw [interpretToken, henv.bind_iff, if_pos hcomp, hmark.bind_iff, if_pos rfl]
  exact .access_eq hnum

end Interpret

section Pieces
variable {known : Nat → Prop} {entry : Nat → Entry ε} {exec : Executes ε} {e : Environ ε}

/-- There is room for the cells and the bytes of a piece. -/
structure Room (e : Environ ε) (bs : List UInt8) (st : List Cell) (need len : Nat) : Prop where
  cells : st.length + need < stackSize
  bytes : e.fbrk + (bs.length + len) < e.fend

/-- The words of a piece are compiled to its code, and leave the stack as it was. -/
def Compiles (exec : Executes ε) (e : Environ ε) (ts : List (Token ε)) (need : Nat)
    (code : List UInt8) : Prop :=
  ∀ bs st, Room e bs st need code.length → (e.istemp = true → e.tempsp < st.length) →
    Halts (interpret exec ts) (e.grow bs st) .noError (e.grow (bs ++ code) st)

/-- The same, up to the word that ends the piece and resolves it. -/
def Builds (exec : Executes ε) (e : Environ ε) (ts : List (Token ε)) (need : Nat)
    (code : List UInt8) : Prop :=
  ∃ us f, ts = us ++ [control f] ∧ ∀ bs st, Room e bs st need code.length →
    (e.istemp = true → e.tempsp ≤ st.length) → ∃ x, Halts (interpret exec us) (e.grow bs st)
      .noError x ∧ f x = (.resolve, e.grow (bs ++ code) st)

theorem Builds.compiles (h : Builds exec e ts need code) : Compiles exec e ts need code := by
  obtain ⟨us, f, rfl, h⟩ := h
  intro bs st hroom htemp
  obtain ⟨x, hus, hf⟩ := h bs st hroom fun ht => Nat.le_of_lt (htemp ht)
  rw [interpret_append_iff hus, interpret_singleton_iff, control_resolve_iff hf]
  exact resolve_deferred htemp

theorem word_ok (hR : Ready known e) (hN : Named known entry) (x : Nat)
    (hx : x ∈ controlCodes ∨ known x) : Compiles exec e [.word (entry x)] 0 (xtokBytes x) := by
  intro bs st hroom _
  obtain ⟨hxtok, himm⟩ := hN x hx
  rw [interpret_singleton_iff]
  exact word_compiles himm hR.compiling
    (hxtok ▸ compileFcode_grow hR x _ hx rfl hroom.bytes)

theorem skip_ok : Compiles exec e [] 0 [] := by
  intro bs st _ _
  rw [List.append_nil]
  exact .pure _ _

theorem seq_ok (ha : Compiles exec e ts m cs) (hb : Compiles exec e us n ds) :
    Compiles exec e (ts ++ us) (max m n) (cs ++ ds) := by
  intro bs st hroom htemp
  have hcells := hroom.cells
  have hbytes := hroom.bytes
  rw [List.length_append] at hbytes
  have hfirst := ha bs st ⟨by omega, by omega⟩ htemp
  rw [interpret_append_iff hfirst, ← List.append_assoc]
  refine hb _ st ⟨by omega, ?_⟩ htemp
  rw [List.length_append]
  omega

theorem lit_ok (hR : Ready known e) (n : Cell) :
    Compiles exec e [.number n] 0 (0x10 :: num32Bytes n) := by
  intro bs st hroom _
  have hbytes := hroom.bytes
  rw [List.length_cons, num32Bytes_length] at hbytes
  have hmark : compileFcode 0x10 (e.grow bs st) = _ :=
    compileFcode_grow hR 0x10 [0x10] (.inl (by decide)) rfl (by rw [List.length_singleton]; omega)
  rw [interpret_singleton_iff]
  refine number_compiles hR.compiling hmark ?_
  rw [compileNum32, compileBytes_emit, grow_emit, List.append_assoc]
  · rfl
  · show e.fbrk + (bs ++ [0x10]).length + 4 < e.fend
    rw [List.length_append, List.length_singleton]
    omega

theorem fIf_ok (hR : Ready known e) (hroom : Room e bs st 2 4) :
    Halts (interpretToken exec (control fIf)) (e.grow bs st) .noError
      (e.grow (bs ++ [0x07, 0x14] ++ offsetBytes 0)
        (0x714 :: e.place (bs ++ [0x07, 0x14]).length :: st)) := by
  refine control_ret ?_
  rw [fIf, beginTempCompile_grow hR]
  exact compileBranch_forward hR hroom.cells hroom.bytes

theorem fThen_grow (hR : Ready known e) (hshort : ys.length + 3 < 0x8000)
    (hroom : e.fbrk + (xs.length + (ys.length + 2) + 1) < e.fend)
    (hlen : 3 ≤ xs.length + (ys.length + 2))
    (hplain : ¬ EndsInBbranch (xs ++ offsetBytes 0 ++ ys)) :
    fThen (e.grow (xs ++ offsetBytes 0 ++ ys) (c :: e.place xs.length :: st)) =
      (.resolve, e.grow (xs ++ offsetBytes (ys.length + 3 : Nat) ++ (ys ++ [0xB2])) st) := by
  rw [fThen, ready_if hR, resolveBranch_grow hR hshort hroom hlen hplain]

theorem ifThen_builds (hR : Ready known e) (ha : Compiles exec e ts n cs)
    (hshort : cs.length + 3 < 0x8000) (hplain : ¬ EndsInBbranch cs) :
    Builds exec e (control fIf :: ts ++ [control fThen]) (n + 2)
      ([0x07, 0x14] ++ offsetBytes (cs.length + 3) ++ cs ++ [0xB2]) := by
  refine ⟨control fIf :: ts, fThen, rfl, fun bs st hroom htemp => ?_⟩
  obtain ⟨hcells, hbytes⟩ := hroom
  simp at hbytes
  have hbody : Halts (interpret exec ts) (e.grow (bs ++ [0x07, 0x14] ++ offsetBytes 0)
      (0x714 :: e.place (bs ++ [0x07, 0x14]).length :: st)) _ _ :=
    ha _ _ ⟨by simp; omega, by simp; omega⟩ fun ht =>
      Nat.lt_add_right 1 (Nat.lt_succ_of_le (htemp ht))
  have hends : ¬ EndsInBbranch (bs ++ [0x07, 0x14] ++ offsetBytes 0 ++ cs) := by
    rw [List.append_cons bs, List.append_assoc (bs ++ [0x07])]
    exact fun h => hplain ((endsInBbranch_append (.inl (by decide)) (.inl (by decide))
      (by decide)).1 h)
  have hif : Halts (interpretToken exec (control fIf)) (e.grow bs st) _ _ :=
    fIf_ok hR ⟨by omega, by omega⟩
  refine ⟨_, (interpret_cons_iff hif).2 hbody,
    (fThen_grow hR hshort (by simp; omega) (by simp; omega) hends).trans ?_⟩
  simp only [List.append_assoc, Nat.cast_add, Nat.cast_ofNat]

/-- `then` fails behind the bytes that it takes for the branch of an `else`. -/
theorem ifThen_fails (bs : List UInt8) (st : List Cell) (hR : Ready known e)
    (ha : Compiles exec e ts n cs) (hends : EndsInBbranch cs) (hst : st.length < 2)
    (hroom : Room e bs st (n + 2) (cs.length + 4))
    (htemp : e.istemp = true → e.tempsp ≤ st.length) :
    ∃ e', Halts (interpret exec (control fIf :: ts ++ [control fThen])) (e.grow bs st)
      .eStackUnderflow e' := by
  obtain ⟨hcells, hbytes⟩ := hroom
  have hif : Halts (interpretToken exec (control fIf)) (e.grow bs st) _ _ :=
    fIf_ok hR ⟨by omega, by omega⟩
  have hbody : Halts (interpret exec ts) (e.grow (bs ++ [0x07, 0x14] ++ offsetBytes 0)
      (0x714 :: e.place (bs ++ [0x07, 0x14]).length :: st)) _ _ :=
    ha _ _ ⟨by simp; omega, by simp; omega⟩ fun ht =>
      Nat.lt_add_right 1 (Nat.lt_succ_of_le (htemp ht))
  have htaken : EndsInBbranch (bs ++ [0x07, 0x14] ++ offsetBytes 0 ++ cs) := by
    rw [List.append_cons bs, List.append_assoc (bs ++ [0x07])]
    exact (endsInBbranch_append (.inl (by decide)) (.inl (by decide)) (by decide)).2 hends
  have hthen : fThen (e.grow (bs ++ [0x07, 0x14] ++ offsetBytes 0 ++ cs)
      (0x714 :: e.place (bs ++ [0x07, 0x14]).length :: st)) = (.ret .eStackUnderflow,
        e.grow (bs ++ [0x07, 0x14] ++ offsetBytes 0 ++ cs) st) := by
    rw [fThen, ready_if hR]
    exact resolveBranch_misread hR (by simp; omega) htaken hst
  exact ⟨_, (interpret_append_iff ((interpret_cons_iff hif).2 hbody)).2
    (interpret_singleton_iff.2 (control_ret hthen))⟩

theorem ifElse_builds (hR : Ready known e) (ha : Compiles exec e ts m cs)
    (hb : Compiles exec e us n ds) (hshort : cs.length + 6 < 0x8000)
    (hshort' : ds.length + 4 < 0x8000) (hplain : ¬ EndsInBbranch ds) :
    Builds exec e (control fIf :: ts ++ control fElse :: us ++ [control fThen])
      (max 3 (max m n + 2)) ([0x07, 0x14] ++ offsetBytes (cs.length + 6) ++ cs ++
        (0x13 :: offsetBytes (ds.length + 4)) ++ [0xB2] ++ ds ++ [0xB2]) := by
  refine ⟨_, fThen, rfl, fun bs st hroom htemp => ?_⟩
  obtain ⟨hcells, hbytes⟩ := hroom
  simp at hbytes
  obtain ⟨zs, hzs⟩ : ∃ zs, bs ++ [0x07, 0x14] ++ offsetBytes (cs.length + 6 : Nat) ++
    (cs ++ [0x13]) = zs := ⟨_, rfl⟩
  have hlen : zs.length = bs.length + 2 + 2 + (cs.length + 1) := by simp [← hzs]; omega
  have hif : Halts (interpretToken exec (control fIf)) (e.grow bs st) _ _ :=
    fIf_ok hR ⟨by omega, by omega⟩
  have hfirst : Halts (interpret exec ts) (e.grow (bs ++ [0x07, 0x14] ++ offsetBytes 0)
      (0x714 :: e.place (bs ++ [0x07, 0x14]).length :: st)) _ _ :=
    ha _ _ ⟨by simp; omega, by simp; omega⟩ fun ht =>
      Nat.lt_add_right 1 (Nat.lt_succ_of_le (htemp ht))
  have helse : fElse (e.grow (bs ++ [0x07, 0x14] ++ offsetBytes 0 ++ cs)
      (0x714 :: e.place (bs ++ [0x07, 0x14]).length :: st)) = _ :=
    fElse_grow hR hshort (by omega) (by simp; omega) hzs
  have hsecond : Halts (interpret exec us) (e.grow (zs ++ offsetBytes 0 ++ [0xB2])
      (0x714 :: e.place zs.length :: st)) _ _ :=
    hb _ _ ⟨by simp; omega, by simp; omega⟩ fun ht =>
      Nat.lt_add_right 1 (Nat.lt_succ_of_le (htemp ht))
  have hends : ¬ EndsInBbranch (zs ++ offsetBytes 0 ++ ([0xB2] ++ ds)) := by
    rw [← List.append_assoc, List.append_assoc zs]
    exact fun h => hplain ((endsInBbranch_append (.inl (by decide)) (.inl (by decide))
      (by decide)).1 h)
  rw [List.append_assoc _ [0xB2] ds] at hsecond
  refine ⟨_, (interpret_append_iff ((interpret_cons_iff hif).2 hfirst)).2
    ((interpret_cons_iff (control_ret helse)).2 hsecond),
    (fThen_grow hR (by simp; omega) (by simp; omega) (by omega) hends).trans ?_⟩
  have hoff : ((([0xB2] ++ ds).length + 3 : Nat) : Int) = ds.length + 4 := by simp; omega
  rw [← hzs, hoff]
  simp only [List.append_assoc, Nat.cast_add, Nat.cast_ofNat]
  rfl

theorem fBegin_ok (hR : Ready known e) (hroom : Room e bs st 2 2) :
    Halts (interpretToken exec (control fBltmark)) (e.grow bs st) .noError
      (e.grow (bs ++ [0x07, 0x01]) (0xB1 :: e.place (bs.length + 2) :: st)) :=
  control_ret (fBltmark_grow hR hroom.cells hroom.bytes)

theorem back_builds (hR : Ready known e) (ha : Compiles exec e ts n cs) (x : Nat)
    (hx : x ∈ controlCodes) (hbytes : xtokBytes x = ds) (hf : f = compileBranch x (-1))
    (hshort : cs.length + ds.length < 0x8000) :
    Builds exec e (control fBltmark :: ts ++ [control f]) (n + 2)
      ([0x07, 0x01] ++ cs ++ (ds ++ offsetBytes (-(cs.length + ds.length)))) := by
  refine ⟨_, f, rfl, fun bs st hroom htemp => ?_⟩
  obtain ⟨hcells, hbytes⟩ := hroom
  simp at hbytes
  have hbegin : Halts (interpretToken exec (control fBltmark)) (e.grow bs st) _ _ :=
    fBegin_ok hR ⟨by omega, by omega⟩
  have hbody : Halts (interpret exec ts) (e.grow (bs ++ [0x07, 0x01])
      (0xB1 :: e.place (bs.length + 2) :: st)) _ _ :=
    ha _ _ ⟨by simp; omega, by simp; omega⟩ fun ht =>
      Nat.lt_add_right 1 (Nat.lt_succ_of_le (htemp ht))
  refine ⟨_, (interpret_cons_iff hbegin).2 hbody, ?_⟩
  rw [hf, compileBranch_back hR hx ‹_› (by simp) (by simp; omega) (by simp; omega)]
  have hoff : ((bs.length + 2 : Nat) : Int) - ((bs ++ [0x07, 0x01] ++ cs).length + ds.length) =
      -(cs.length + ds.length) := by simp; omega
  rw [hoff]
  simp only [List.append_assoc]

theorem whileLoop_builds (hR : Ready known e) (ha : Compiles exec e ts m cs)
    (hb : Compiles exec e us n ds) (hshort : cs.length + ds.length + 6 < 0x8000) :
    Builds exec e (control fBltmark :: ts ++ control fWhile :: us ++ [control fRepeat])
      (max 4 (max (m + 2) (n + 4))) ([0x07, 0x01] ++ cs ++
        ([0x07, 0x14] ++ offsetBytes (ds.length + 6)) ++ ds ++
        (0x13 :: offsetBytes (-(cs.length + ds.length + 5))) ++ [0xB2]) := by
  refine ⟨_, fRepeat, rfl, fun bs st hroom htemp => ?_⟩
  obtain ⟨hcells, hbytes⟩ := hroom
  simp at hbytes
  have hbegin : Halts (interpretToken exec (control fBltmark)) (e.grow bs st) _ _ :=
    fBegin_ok hR ⟨by omega, by omega⟩
  have hfirst : Halts (interpret exec ts) (e.grow (bs ++ [0x07, 0x01])
      (0xB1 :: e.place (bs.length + 2) :: st)) _ _ :=
    ha _ _ ⟨by simp; omega, by simp; omega⟩ fun ht =>
      Nat.lt_add_right 1 (Nat.lt_succ_of_le (htemp ht))
  obtain ⟨xs, hxs⟩ : ∃ xs, bs ++ [0x07, 0x01] ++ cs ++ [0x07, 0x14] = xs := ⟨_, rfl⟩
  have hlen : xs.length = bs.length + 2 + cs.length + 2 := by simp [← hxs]; omega
  have hwhile : fWhile (e.grow (bs ++ [0x07, 0x01] ++ cs)
      (0xB1 :: e.place (bs.length + 2) :: st)) = (.ret .noError, e.grow (xs ++ offsetBytes 0)
        (0x714 :: e.place xs.length :: 0xB1 :: e.place (bs.length + 2) :: st)) := by
    rw [← hxs]
    exact compileBranch_forward hR (by simp; omega) (by simp; omega)
  have hsecond : Halts (interpret exec us) (e.grow (xs ++ offsetBytes 0)
      (0x714 :: e.place xs.length :: 0xB1 :: e.place (bs.length + 2) :: st)) _ _ :=
    hb _ _ ⟨by simp; omega, by simp; omega⟩ fun ht => by
      have hlow := htemp ht
      simp
      omega
  refine ⟨_, (interpret_append_iff ((interpret_cons_iff hbegin).2 hfirst)).2
    ((interpret_cons_iff (control_ret hwhile)).2 hsecond),
    (fRepeat_grow (o := -(cs.length + ds.length + 5)) hR (by omega) (by omega) (by omega)
      (by omega) (by omega)).trans ?_⟩
  rw [← hxs]
  simp only [List.append_assoc, Nat.cast_add, Nat.cast_ofNat]
  rfl

theorem doLoop_builds (hR : Ready known e) (ha : Compiles exec e ts n cs) (x y : Nat)
    (hx : x ∈ controlCodes) (hy : y ∈ controlCodes) (hxs : xtokBytes x = [0x07, b])
    (hys : xtokBytes y = [d]) (hshort : cs.length + 5 < 0x8000) :
    Builds exec e (control (compileDo x) :: ts ++ [control (compileLoop y)]) (max 2 (n + 1))
      ([0x07, b] ++ offsetBytes (cs.length + 5) ++ cs ++
        (d :: offsetBytes (-(cs.length + 1)))) := by
  refine ⟨_, compileLoop y, rfl, fun bs st hroom htemp => ?_⟩
  obtain ⟨hcells, hbytes⟩ := hroom
  simp at hbytes
  have hdo : compileDo x (e.grow bs st) = _ :=
    compileDo_grow hR x hx hxs (by omega) (by simp; omega)
  have hbody : Halts (interpret exec ts) (e.grow (bs ++ [0x07, b] ++ offsetBytes 0)
      (e.place (bs ++ [0x07, b]).length :: st)) _ _ :=
    ha _ _ ⟨by simp; omega, by simp; omega⟩ fun ht => Nat.lt_succ_of_le (htemp ht)
  refine ⟨_, (interpret_cons_iff (control_ret hdo)).2 hbody,
    (compileLoop_grow hR y hy hys hshort (by simp; omega)).trans ?_⟩
  simp only [List.append_assoc, Nat.cast_add, Nat.cast_ofNat]
  rfl

/-- The same for the clauses of a `case`, where the branches at the places `ks` lead to its end. -/
def ClausesBuild (exec : Executes ε) (e : Environ ε) (ts : List (Token ε)) (need : Nat)
    (code : List UInt8) : Prop :=
  ∃ us, ts = us ++ [control fEndcase] ∧ ∀ ks bs st,
    Room e bs (ks.map e.place ++ 0 :: st) need code.length →
    (e.istemp = true → e.tempsp ≤ st.length) →
    (∀ k ∈ ks, k + 2 ≤ bs.length ∧ bs.length + code.length < k + 0x8000) →
    ∃ x, Halts (interpret exec us) (e.grow bs (ks.map e.place ++ 0 :: st)) .noError x ∧
      fEndcase x = (.resolve, e.grow (patchAll (bs.length + code.length) ks bs ++ code) st)

theorem default_builds (hR : Ready known e) (ha : Compiles exec e ts n cs) :
    ClausesBuild exec e (ts ++ [control fEndcase]) n (cs ++ [0xC5]) := by
  refine ⟨ts, rfl, fun ks bs st hroom htemp hks => ?_⟩
  obtain ⟨hcells, hbytes⟩ := hroom
  rw [List.length_append, List.length_singleton] at hbytes
  have hdepth : e.istemp = true → e.tempsp < (ks.map e.place ++ 0 :: st).length := fun ht => by
    have hlow := htemp ht
    simp
    omega
  refine ⟨_, ha bs _ ⟨hcells, by omega⟩ hdepth, (fEndcase_grow hR ks (fun k hk => ?_) ?_).trans ?_⟩
  · obtain ⟨hplace, hnear⟩ := hks k hk
    simp at hnear ⊢
    omega
  · simp
    omega
  · rw [patchAll_append _ _ _ _ fun k hk => (hks k hk).1, List.append_assoc, List.length_append,
      List.length_append, Nat.add_assoc]
    rfl

theorem clause_builds (hR : Ready known e) (ha : Compiles exec e ts l cs)
    (hb : Compiles exec e us m ds) (hrest : ClausesBuild exec e vs n es)
    (hshort : ds.length + 5 < 0x8000) (hshort' : es.length + 2 < 0x8000) :
    ClausesBuild exec e (ts ++ control fOf :: us ++ control fEndof :: vs)
      (max (max l (m + 1)) (max 2 (n + 1)))
      (cs ++ (0x1C :: offsetBytes (ds.length + 5)) ++ ds ++
        (0xC6 :: offsetBytes (es.length + 2)) ++ es) := by
  obtain ⟨ws, rfl, hrest⟩ := hrest
  generalize hcode : cs ++ (0x1C :: offsetBytes (ds.length + 5)) ++ ds ++
    (0xC6 :: offsetBytes (es.length + 2)) ++ es = code
  have hsize : code.length = cs.length + 3 + ds.length + 3 + es.length := by simp [← hcode]; omega
  refine ⟨ts ++ control fOf :: us ++ control fEndof :: ws, by simp,
    fun ks bs st hroom htemp hks => ?_⟩
  obtain ⟨hcells, hbytes⟩ := hroom
  simp at hcells
  have hdepth : e.istemp = true → e.tempsp < (ks.map e.place ++ 0 :: st).length := fun ht => by
    have hlow := htemp ht
    simp
    omega
  have hfirst := ha bs _ ⟨by simp; omega, by omega⟩ hdepth
  have hof : fOf (e.grow (bs ++ cs) (ks.map e.place ++ 0 :: st)) = _ :=
    fOf_grow hR (by simp; omega) (by simp; omega)
  have hsecond := hb (bs ++ cs ++ [0x1C] ++ offsetBytes 0)
    (e.place (bs ++ cs ++ [0x1C]).length :: (ks.map e.place ++ 0 :: st))
    ⟨by simp; omega, by simp; omega⟩ fun ht => Nat.lt_succ_of_lt (hdepth ht)
  obtain ⟨zs, hzs⟩ : ∃ zs, bs ++ cs ++ [0x1C] ++ offsetBytes (ds.length + 5 : Nat) ++
    (ds ++ [0xC6]) = zs := ⟨_, rfl⟩
  have hlen : zs.length = bs.length + cs.length + 1 + 2 + (ds.length + 1) := by simp [← hzs]; omega
  have hendof : fEndof (e.grow (bs ++ cs ++ [0x1C] ++ offsetBytes 0 ++ ds)
      (e.place (bs ++ cs ++ [0x1C]).length :: (ks.map e.place ++ 0 :: st))) = _ :=
    fEndof_grow hR hshort (by simp; omega) (by simp; omega) (by simp; omega) hzs
  have hplaces : ∀ k ∈ zs.length :: ks, k + 2 ≤ (zs ++ offsetBytes 0).length ∧
      (zs ++ offsetBytes 0).length + es.length < k + 0x8000 := by
    intro k hk
    rw [List.length_append, offsetBytes_length]
    obtain rfl | hk := List.mem_cons.1 hk
    · omega
    · obtain ⟨hplace, hnear⟩ := hks k hk
      omega
  obtain ⟨x, hlast, hend⟩ := hrest (zs.length :: ks) (zs ++ offsetBytes 0) st
    ⟨by simp; omega, by simp; omega⟩ htemp hplaces
  refine ⟨x, (interpret_append_iff ((interpret_append_iff hfirst).2
    ((interpret_cons_iff (control_ret hof)).2 hsecond))).2
    ((interpret_cons_iff (control_ret hendof)).2 hlast), hend.trans ?_⟩
  have hfin : (zs ++ offsetBytes 0).length + es.length = bs.length + code.length := by simp; omega
  have hoff : ((bs.length + code.length : Nat) : Int) - zs.length = es.length + 2 := by omega
  -- the branch of this clause is patched, and those of the clauses before it
  rw [hfin, patchAll, hoff, List.take_left, List.drop_eq_nil_of_le (by simp), List.append_nil,
    ← hzs, ← hcode]
  simp only [List.append_assoc]
  rw [patchAll_append _ _ _ _ fun k hk => (hks k hk).1]
  simp only [List.append_assoc, Nat.cast_add, Nat.cast_ofNat]
  rfl

theorem caseOf_builds (hR : Ready known e) (hc : ClausesBuild exec e ts n cs) :
    Builds exec e (control fBcase :: ts) (max 2 (n + 1)) ([0x07, 0x04] ++ cs) := by
  obtain ⟨us, rfl, hc⟩ := hc
  refine ⟨control fBcase :: us, fEndcase, rfl, fun bs st hroom htemp => ?_⟩
  obtain ⟨hcells, hbytes⟩ := hroom
  simp at hbytes
  have hcase : fBcase (e.grow bs st) = _ := fBcase_grow hR (by omega) (by omega)
  obtain ⟨x, hus, hend⟩ := hc [] (bs ++ [0x07, 0x04]) st ⟨by simp; omega, by simp; omega⟩ htemp
    fun k hk => absurd hk List.not_mem_nil
  refine ⟨x, (interpret_cons_iff (control_ret hcase)).2 hus, hend.trans ?_⟩
  rw [patchAll, List.append_assoc]

theorem leave_ok (hR : Ready known e) : Compiles exec e [control fLeave] 0 [0x1B] := by
  intro bs st hroom _
  have hon : (e.grow bs st).iscompiling = true := hR.compiling
  rw [interpret_singleton_iff]
  refine control_ret ?_
  have hcode : compileFcode 0x1B (e.grow bs st) = _ :=
    compileFcode_grow hR 0x1B [0x1B] (.inl (by decide)) rfl hroom.bytes
  rw [fLeave, if_pos hon, hcode]
  rfl

theorem exit_ok (hR : Ready known e) (hN : Named known entry) (depth : Nat) :
    Compiles exec e (List.replicate depth (.word (entry 0x89)) ++ [.word (entry 0x33)]) 0
      (List.replicate depth 0x89 ++ [0x33]) := by
  induction depth with
  | zero => exact word_ok hR hN 0x33 (.inl (by decide))
  | succ depth ih => exact seq_ok (word_ok hR hN 0x89 (.inl (by decide))) ih

end Pieces

/-- A control structure, whose last word resolves it. -/
def Src.Structured : Src → Prop
  | .ifThen _ | .ifElse _ _ | .untilLoop _ | .again _ | .whileLoop _ _ | .doLoop _ _ _
  | .caseOf _ => True
  | _ => False

section Compiled
variable {known : Nat → Prop} {entry : Nat → Entry ε} {exec : Executes ε} {e : Environ ε}

/-- What is proved of a piece. -/
def Src.Compiles (entry : Nat → Entry ε) (exec : Executes ε) (e : Environ ε) (p : Src) : Prop :=
  (p.Structured → Builds exec e (p.tokens entry) p.need p.code) ∧
    Forth.Compiles exec e (p.tokens entry) p.need p.code

theorem Src.Compiles.built {p : Src} (h : Builds exec e (p.tokens entry) p.need p.code) :
    p.Compiles entry exec e :=
  ⟨fun _ => h, h.compiles⟩

theorem Src.Compiles.simple {p : Src} (hp : ¬ p.Structured)
    (h : Forth.Compiles exec e (p.tokens entry) p.need p.code) : p.Compiles entry exec e :=
  ⟨fun hs => absurd hs hp, h⟩

mutual

theorem Src.compiles (hR : Ready known e) (hN : Named known entry) (p : Src) (depth : Nat)
    (hp : p.Closed known depth) (hplain : p.Plain) (hshort : p.code.length < 0x8000) :
    p.Compiles entry exec e :=
  match p, hp, hplain, hshort with
  | .skip, _, _, _ => .simple id skip_ok
  | .seq a b, hp, hplain, hshort =>
    have hlen : a.code.length + b.code.length < 0x8000 := List.length_append ▸ hshort
    .simple id (seq_ok (a.compiles hR hN depth hp.1 hplain.1 (by omega)).2
      (b.compiles hR hN depth hp.2 hplain.2 (by omega)).2)
  | .word x, hp, _, _ => .simple id (word_ok hR hN x (.inr hp))
  | .lit n, _, _, _ => .simple id (lit_ok hR n)
  | .ifThen a, hp, hplain, hshort =>
    have hlen : a.code.length + 5 < 0x8000 := by simp at hshort; omega
    .built (ifThen_builds hR (a.compiles hR hN depth hp hplain.1 (by omega)).2 (by omega) hplain.2)
  | .ifElse a b, hp, hplain, hshort =>
    have hlen : a.code.length + b.code.length + 9 < 0x8000 := by simp at hshort; omega
    .built (ifElse_builds hR (a.compiles hR hN depth hp.1 hplain.1 (by omega)).2
      (b.compiles hR hN depth hp.2 hplain.2.1 (by omega)).2 (by omega) (by omega) hplain.2.2)
  | .untilLoop a, hp, hplain, hshort =>
    have hlen : a.code.length + 6 < 0x8000 := by simp at hshort; omega
    .built (back_builds hR (a.compiles hR hN depth hp hplain (by omega)).2 0x714 (by decide) rfl rfl
      (show a.code.length + 2 < 0x8000 by omega))
  | .again a, hp, hplain, hshort =>
    have hlen : a.code.length + 5 < 0x8000 := by simp at hshort; omega
    .built (back_builds hR (a.compiles hR hN depth hp hplain (by omega)).2 0x13 (by decide) rfl rfl
      (show a.code.length + 1 < 0x8000 by omega))
  | .whileLoop a b, hp, hplain, hshort =>
    have hlen : a.code.length + b.code.length + 10 < 0x8000 := by simp at hshort; omega
    .built (whileLoop_builds hR (a.compiles hR hN depth hp.1 hplain.1 (by omega)).2
      (b.compiles hR hN depth hp.2 hplain.2 (by omega)).2 (by omega))
  | .doLoop question plus a, hp, hplain, hshort =>
    have hlen : a.code.length + 7 < 0x8000 := by simp at hshort; omega
    have ha := (a.compiles hR hN (depth + 1) hp hplain (by omega)).2
    .built (match question, plus with
      | false, false => doLoop_builds hR ha 0x717 0x15 (by decide) (by decide) rfl rfl (by omega)
      | false, true => doLoop_builds hR ha 0x717 0x16 (by decide) (by decide) rfl rfl (by omega)
      | true, false => doLoop_builds hR ha 0x718 0x15 (by decide) (by decide) rfl rfl (by omega)
      | true, true => doLoop_builds hR ha 0x718 0x16 (by decide) (by decide) rfl rfl (by omega))
  | .caseOf c, hp, hplain, hshort =>
    have hlen : c.code.length + 2 < 0x8000 := by simp at hshort; omega
    .built (caseOf_builds hR (c.builds hR hN depth hp hplain (by omega)))
  | .leave, _, _, _ => .simple id (leave_ok hR)
  | .index, _, _, _ => .simple id (word_ok hR hN 0x19 (.inl (by decide)))
  | .outerIndex, _, _, _ => .simple id (word_ok hR hN 0x1A (.inl (by decide)))
  | .exit depth, _, _, _ => .simple id (exit_ok hR hN depth)

theorem Clauses.builds (hR : Ready known e) (hN : Named known entry) (c : Clauses) (depth : Nat)
    (hc : c.Closed known depth) (hplain : c.Plain) (hshort : c.code.length < 0x8000) :
    ClausesBuild exec e (c.tokens entry) c.need c.code :=
  match c, hc, hplain, hshort with
  | .default a, hc, hplain, hshort =>
    have hlen : a.code.length + 1 < 0x8000 := by simp at hshort; omega
    default_builds hR (a.compiles hR hN depth hc hplain (by omega)).2
  | .clause a b rest, hc, hplain, hshort =>
    have hlen : a.code.length + b.code.length + rest.code.length + 6 < 0x8000 := by
      simp at hshort
      omega
    clause_builds hR (a.compiles hR hN depth hc.1 hplain.1 (by omega)).2
      (b.compiles hR hN depth hc.2.1 hplain.2.1 (by omega)).2
      (rest.builds hR hN depth hc.2.2 hplain.2.2 (by omega)) (by omega) (by omega)

end

end Compiled

end Pegasos2.Forth
