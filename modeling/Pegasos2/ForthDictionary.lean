import Mathlib.Data.List.GetD
import Pegasos2.ForthPreserves

namespace Pegasos2.Forth
open Program Prog
set_option autoImplicit true

variable {ε : Type}

/-- A word as its author sees it. -/
inductive Defn (ε : Type) where
  | prim (f : Prim ε)
  | colon (p : Src)

/-- The words with a meaning, by execution token. -/
abbrev Defs (ε : Type) := Nat → Option (Defn ε)

def Defs.known (defs : Defs ε) (x : Nat) : Prop := ∃ d, defs x = some d

/-- What a called word means, where `run` is what a colon definition means. -/
def Defs.calls (defs : Defs ε) (run : Src → List Frame → Prog (Store ε) Retcode) : Calls ε :=
  fun x fs =>
    match defs x with
    | none => pure .eIllegalXtok
    | some (.prim f) => access f.run
    | some (.colon p) => run p fs

/-- A colon definition, with room for `depth` definitions that are being executed at once. -/
def Defs.runAt (defs : Defs ε) : Nat → Src → List Frame → Prog (Store ε) Retcode
  | 0 => fun _ _ => never
  | depth + 1 => fun p fs => p.run (defs.calls (defs.runAt depth)) fs

/-- The entry of a word holds the built-in function, or the code of the definition. -/
def Implements (defs : Defs ε) (kind : Kind ε) : Defn ε → Prop
  | .prim f => kind = .prim f
  | .colon p => ∃ buf, kind = .fcode buf (p.code.length + 1) ∧ Spells buf 0 (p.code ++ [0x00]) ∧
      p.Closed defs.known 0 ∧ p.code.length < 0x8000

/-- The table of execution tokens holds the compiled dictionary. -/
structure Compiled (defs : Defs ε) (T : Xtoks ε) : Prop where
  controls : ∀ x f, (x, f) ∈ controlWords → x < T.numxtoks ∧ (T.entries x).kind = .func f
  words : ∀ x d, defs x = some d →
    Readable x ∧ x < T.numxtoks ∧ Implements defs (T.entries x).kind d

/-- The bytes of a list, and zeros around them. -/
def listBuf (bs : List UInt8) (i : Int) : UInt8 := bs.getD i.toNat 0

theorem listBuf_spells (ws bs : List UInt8) : Spells (listBuf (ws ++ bs)) ws.length bs := by
  induction bs generalizing ws with
  | nil => trivial
  | cons b bs ih =>
    have hrest := ih (ws ++ [b])
    rw [List.append_assoc, List.length_append] at hrest
    refine ⟨?_, hrest⟩
    rw [listBuf, Int.toNat_natCast, List.getD_append_right _ _ _ _ (Nat.le_refl _), Nat.sub_self]
    rfl

def Defn.kind : Defn ε → Kind ε
  | .prim f => .prim f
  | .colon p => .fcode (listBuf (p.code ++ [0x00])) (p.code.length + 1)

/-- The table of the words of the control structures and of a dictionary. -/
def Defs.table (defs : Defs ε) (n : Nat) : Xtoks ε where
  numxtoks := n
  entries x := ⟨x, false, (controlWords.lookup x).elim ((defs x).elim (.func fEnd) Defn.kind) .func⟩

/-- A word of which a table can be made. -/
def Defn.Fits (defs : Defs ε) : Defn ε → Prop
  | .prim _ => True
  | .colon p => p.Closed defs.known 0 ∧ p.code.length < 0x8000

theorem Defs.table_compiled {defs : Defs ε} (hn : 0x719 ≤ n) (h : ∀ x d, defs x = some d →
    Readable x ∧ x < n ∧ (controlWords (ε := ε)).lookup x = none ∧ d.Fits defs) :
    Compiled defs (defs.table n) where
  controls := by
    intro x f hmem
    simp only [controlWords, List.mem_cons, Prod.mk.injEq, List.not_mem_nil, or_false] at hmem
    obtain ⟨rfl, rfl⟩ | ⟨rfl, rfl⟩ | ⟨rfl, rfl⟩ | ⟨rfl, rfl⟩ | ⟨rfl, rfl⟩ | ⟨rfl, rfl⟩ |
      ⟨rfl, rfl⟩ | ⟨rfl, rfl⟩ | ⟨rfl, rfl⟩ | ⟨rfl, rfl⟩ | ⟨rfl, rfl⟩ | ⟨rfl, rfl⟩ | ⟨rfl, rfl⟩ |
      ⟨rfl, rfl⟩ | ⟨rfl, rfl⟩ | ⟨rfl, rfl⟩ | ⟨rfl, rfl⟩ | ⟨rfl, rfl⟩ | ⟨rfl, rfl⟩ | ⟨rfl, rfl⟩ |
      ⟨rfl, rfl⟩ | ⟨rfl, rfl⟩ := hmem
    all_goals exact ⟨Nat.lt_of_lt_of_le (by decide) hn, rfl⟩
  words := by
    intro x d hd
    obtain ⟨hread, hx, hfree, hfits⟩ := h x d hd
    refine ⟨hread, hx, ?_⟩
    show Implements defs ((controlWords.lookup x).elim _ _) d
    rw [hfree, hd]
    cases d with
    | prim f => rfl
    | colon p => exact ⟨_, rfl, listBuf_spells [] _, hfits⟩

section Calls
variable {exec : Executes ε} {T : Xtoks ε} {e : Environ ε}

theorem execXtok_iff {x : Nat} (hx : x < T.numxtoks) (hcomp : e.iscompiling = false) :
    Halts (execXtok T exec x) e r e' ↔
      Halts (runKind exec (T.entries x).immediate (T.entries x).kind) e r e' := by
  have henv : Halts environ e e e := .access _ _
  rw [execXtok, if_neg (by omega), doEval, henv.bind_iff, hcomp, Bool.false_and,
    if_neg Bool.false_ne_true, Int.toNat_natCast]

theorem runs_of_func {x : Nat} {f : Command ε} (hx : x < T.numxtoks)
    (hf : (T.entries x).kind = .func f) : Runs (execXtok T exec) x f := by
  intro e e' r hcomp hrun
  rw [execXtok_iff hx hcomp, hf]
  have haccess : Halts (access f) e (.ret r) e' := .access_eq hrun
  exact haccess.bind (.pure _ _)

theorem Compiled.toControls (h : Compiled defs T) : Controls (execXtok T exec) := by
  have hword : ∀ x f, (x, f) ∈ controlWords → Runs (execXtok T exec) x f :=
    fun x f hmem => runs_of_func (h.controls x f hmem).1 (h.controls x f hmem).2
  constructor
  all_goals
    apply hword
    simp only [controlWords, List.mem_cons, Prod.mk.injEq, and_true, true_or, or_true]

theorem prim_carries {x : Nat} {f : Prim ε} (hx : x < T.numxtoks)
    (hf : (T.entries x).kind = .prim f) (hcomp : e.iscompiling = false) :
    CarriesOut (execXtok T exec x) e (access f.run) where
  comes r s hrun := by
    obtain ⟨rfl, rfl⟩ := hrun.of_access
    refine ⟨f.noEnd _, e.input.loc, e.rstack, ?_, fun _ => ⟨rfl, rfl⟩⟩
    rw [execXtok_iff hx hcomp, hf]
    exact .access (runPrim f) e
  ends _ := (Halts.access f.run e.store).ends

theorem never_carries : CarriesOut (never : Prog (Environ ε) Retcode) e never where
  comes _ _ h := h.of_never.elim
  ends h := by
    obtain ⟨r, e', h⟩ := h
    exact h.of_never.elim

theorem runFcode_iff (hcomp : e.iscompiling = false) : Halts (runFcode exec code len imm) e r e' ↔
    ∃ e₁, Halts (exec code len) e r e₁ ∧ e' = { e₁ with iscompiling := false } := by
  have henv : Halts environ e e e := .access _ _
  have hset : Halts (setEnviron fun e => { e with iscompiling := e.iscompiling && !imm }) e ()
      e := by
    have h := Halts.access
      (fun e : Environ ε => ((), { e with iscompiling := e.iscompiling && !imm })) e
    rw [hcomp, Bool.false_and, ← hcomp] at h
    exact h
  rw [runFcode, henv.bind_iff, hset.bind_iff, hcomp]
  constructor
  · intro h
    obtain ⟨r', e₁, hexec, h⟩ := h.of_bind
    obtain ⟨_, e₂, hback, h⟩ := h.of_bind
    obtain ⟨-, rfl⟩ := hback.of_access
    obtain ⟨rfl, rfl⟩ := h.of_pure
    exact ⟨e₁, hexec, rfl⟩
  · rintro ⟨e₁, hexec, rfl⟩
    exact hexec.bind (.bind (.access _ _) (.pure _ _))

theorem fcode_carries {x : Nat} (hx : x < T.numxtoks)
    (hf : (T.entries x).kind = .fcode code len) (hcomp : e.iscompiling = false)
    (h : CarriesOut (exec code len) e p) : CarriesOut (execXtok T exec x) e p where
  comes r s hp := by
    obtain ⟨hend, loc, rs, hexec, hsame⟩ := h.comes r s hp
    refine ⟨hend, loc, rs, ?_, hsame⟩
    rw [execXtok_iff hx hcomp, hf]
    refine (runFcode_iff hcomp).2 ⟨_, hexec, ?_⟩
    show e.at loc s rs = { e.at loc s rs with iscompiling := false }
    rw [← hcomp]
    rfl
  ends := by
    rintro ⟨r, e', hrun⟩
    rw [execXtok_iff hx hcomp, hf] at hrun
    obtain ⟨e₁, hexec, -⟩ := (runFcode_iff hcomp).1 hrun
    exact h.ends ⟨r, e₁, hexec⟩

end Calls

/-- The code of a colon definition is executed as `run` says. -/
def Executed (defs : Defs ε) (exec : Executes ε)
    (run : Src → List Frame → Prog (Store ε) Retcode) : Prop :=
  ∀ p buf e fs, Implements defs (.fcode buf (p.code.length + 1)) (.colon p) →
    Environ.iscompiling e = false → Framed e.rstack fs →
    CarriesOut (exec buf (p.code.length + 1)) e (run p fs)

theorem Compiled.serves {run : Src → List Frame → Prog (Store ε) Retcode} (h : Compiled defs T)
    (hexec : Executed defs exec run) :
    Serves (execXtok T exec) (defs.calls run) defs.known where
  readable := by
    rintro x ⟨d, hd⟩
    exact (h.words x d hd).1
  carries := by
    rintro x ⟨d, hd⟩ e fs hcomp hfs
    obtain ⟨-, hx, himpl⟩ := h.words x d hd
    rw [Defs.calls, hd]
    cases d with
    | prim f => exact prim_carries hx himpl hcomp
    | colon p =>
      obtain ⟨buf, hkind, hcode⟩ := himpl
      exact fcode_carries hx hkind hcomp (hexec p buf e fs ⟨buf, rfl, hcode⟩ hcomp hfs)

theorem Compiled.executed (h : Compiled defs T) (depth : Nat) :
    Executed (ε := ε) defs (executeAt T depth) (defs.runAt depth) := by
  induction depth with
  | zero => exact fun _ _ _ _ _ _ _ => never_carries
  | succ depth ih =>
    intro p buf e fs himpl hcomp hfs
    obtain ⟨buf', heq, hcode, hclosed, hshort⟩ := himpl
    obtain rfl : buf = buf' := by injection heq
    rw [spells_append, zero_add] at hcode
    exact execute_carries h.toControls (h.serves ih) p hclosed (by omega) hcode.1
      (.inr ⟨rfl, hcode.2⟩) e hcomp hfs

/-- A word of a compiled dictionary ends with a return code, a data stack and an environment just
where its definition does, loops and calls included, and does not end where that does not. A
built-in word is a `Prim`, which `>r`, `r>`, `execute`, `catch` and `evaluate` are not, and the
return stack holds the frames of the running loops. -/
theorem compiled_word_iff (h : Compiled defs T) (depth : Nat) (hx : defs x = some d)
    (e : Environ ε) (hcomp : e.iscompiling = false) (hfs : Framed e.rstack fs) (r : Retcode)
    (s : Store ε) : (∃ e', Halts (execXtok T (executeAt T depth) x) e r e' ∧ e'.store = s ∧
        (r = .noError → e'.input = e.input ∧ e'.rstack = e.rstack)) ↔
      Halts (defs.calls (defs.runAt depth) x fs) e.store r s := by
  have hcarries := (h.serves (h.executed depth)).carries x ⟨d, hx⟩ e fs hcomp hfs
  constructor
  · rintro ⟨e', hrun, rfl, -⟩
    obtain ⟨r', s', hword⟩ := hcarries.ends ⟨r, e', hrun⟩
    obtain ⟨-, loc, rs, hrun', -⟩ := hcarries.comes r' s' hword
    obtain ⟨rfl, rfl⟩ := hrun.unique hrun'
    exact hword
  · intro hword
    obtain ⟨-, loc, rs, hrun, hsame⟩ := hcarries.comes r s hword
    refine ⟨_, hrun, rfl, fun hr => ?_⟩
    obtain ⟨rfl, rfl⟩ := hsame hr
    exact ⟨rfl, rfl⟩

/-- `: count 3 0 do i loop ;` -/
def countDefs : Defs Unit := fun x =>
  if x = 0x800 then some (.colon (.seq (.lit 3) (.seq (.lit 0) (.doLoop false false .index)))) else
    none

theorem countDefs_compiled : Compiled countDefs (countDefs.table 0x801) := by
  refine Defs.table_compiled (by decide) fun x d hd => ?_
  obtain ⟨rfl, rfl⟩ : x = 0x800 ∧
      Defn.colon (.seq (.lit 3) (.seq (.lit 0) (.doLoop false false .index))) = d := by
    rw [countDefs] at hd
    split_ifs at hd with hx
    exact ⟨hx, Option.some_injective _ hd⟩
  exact ⟨by decide, by decide, rfl, ⟨trivial, trivial, trivial⟩, by decide⟩

theorem compiled_word_iff_count :
    ∃ e', Halts (execXtok (countDefs.table 0x801) (executeAt (countDefs.table 0x801) 1) 0x800)
      (Environ.initial 64 ()) .noError e' ∧ e'.store = ⟨[2, 1, 0], ()⟩ ∧
      (Retcode.noError = .noError → e'.input = (Environ.initial 64 ()).input ∧ e'.rstack = []) :=
  (compiled_word_iff countDefs_compiled 1 rfl (Environ.initial 64 ()) rfl .nil _ _).2 ⟨5, rfl⟩

end Pegasos2.Forth
