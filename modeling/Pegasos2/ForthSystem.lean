import Pegasos2.ForthText

namespace Pegasos2.Forth
open Program Prog
set_option autoImplicit true

variable {ε : Type}

/-- The interpreter between two definitions: nothing is being compiled, no temporary definition was
left open by an error, and the codes that are compiled stand for themselves. -/
structure Idle (known : Nat → Prop) (e : Environ ε) : Prop where
  idle : e.iscompiling = false
  settled : e.istemp = false
  based : 0 < e.fbrk
  addressed : e.fend ≤ 2 ^ 32
  mapped : ∀ x : Nat, x ∈ controlCodes ∨ known x → fcodeXtok e x = x

section System
variable {defs : Defs ε} {entry : Nat → Entry ε} {e : Environ ε} {p : Src}

/-- The memory below a definition stays as it is while the definition is compiled. -/
theorem putBytes_below (m : Buf) (bs : List UInt8) (h : i < k) : putBytes m k bs i = m i := by
  induction bs generalizing m k with
  | nil => rfl
  | cons b bs ih => rw [putBytes, ih _ (Nat.lt_succ_of_lt h), Buf.store_ne _ _ (Nat.ne_of_lt h)]

theorem grow_spells (e : Environ ε) (bs : List UInt8) (st : List Cell) :
    Spells ((e.grow bs st).bytesFrom e.fbrk) 0 bs := by
  have h := e.emit_spells bs e.fbrk (add_zero _)
  rw [Environ.emit_eq] at h
  exact h

/-- The words of a definition between `:` and `;` make an entry that holds the code of the
definition, and change nothing else than the end of the dictionary. -/
theorem colonDefinition_implements (exec : Executes ε) (createNewdef : NewDef → Retcode)
    (newdef : NewDef) (hI : Idle defs.known e) (hN : Named defs.known entry)
    (hp : p.Closed defs.known 0) (hplain : p.Plain) (hshort : p.code.length < 0x8000)
    (hroom : Room e [] e.stack p.need (p.code.length + 1)) :
    ∃ e', Halts (colonDefinition exec createNewdef newdef (p.tokens entry)) e
        (createNewdef ⟨e.fbrk, p.code.length + 1⟩, ⟨e.fbrk, p.code.length + 1⟩) e' ∧
      Implements defs (.fcode (e'.bytesFrom e.fbrk) (p.code.length + 1)) (.colon p) ∧
      (∀ i < e.fbrk, e'.mem i = e.mem i) ∧
      e' =
        { e with
          mem := e'.mem
          fbrk := e.fbrk + (p.code.length + 1)
          iscompiling := false
          tempsp := e.stack.length } := by
  obtain ⟨hcells, hbytes⟩ := hroom
  rw [List.length_nil, zero_add] at hbytes
  generalize he₁ : { e with iscompiling := true, tempsp := e.stack.length } = e₁
  have hR : Ready defs.known e₁ := he₁ ▸ ⟨rfl, hI.based, hI.addressed, hI.mapped⟩
  have hfbrk : e₁.fbrk = e.fbrk := he₁ ▸ rfl
  have hfend : e₁.fend = e.fend := he₁ ▸ rfl
  have hstack : e₁.stack = e.stack := he₁ ▸ rfl
  have htemp : e₁.istemp = false := he₁ ▸ hI.settled
  have hopen : Halts (access (fBcolon newdef)) e (.noError, ⟨e.fbrk, newdef.len⟩) e₁ :=
    .access_eq (by rw [fBcolon, hI.idle, if_neg Bool.false_ne_true, he₁])
  have htext : Halts (interpret exec (p.tokens entry)) e₁ .noError (e₁.grow p.code e.stack) := by
    have hcompiles : p.Compiles entry exec e₁ := p.compiles hR hN 0 hp hplain hshort
    have h := hcompiles.2 [] e.stack
      ⟨hcells, by rw [List.length_nil, hfbrk, hfend]; omega⟩
      fun ht => Bool.noConfusion (htemp.symm.trans ht)
    rwa [← hstack, grow_nil, hstack, List.nil_append] at h
  have hlast : compileFcode 0x00 (e₁.grow p.code e.stack) =
      (.noError, e₁.grow (p.code ++ [0x00]) e.stack) :=
    compileFcode_grow hR 0x00 [0x00] (.inl (by decide)) rfl (by
      rw [hfbrk, hfend, List.length_singleton]
      exact hbytes)
  have hsemi : Halts (fBsemicolon exec createNewdef ⟨e.fbrk, newdef.len⟩)
      (e₁.grow p.code e.stack)
      (createNewdef ⟨e.fbrk, p.code.length + 1⟩, ⟨e.fbrk, p.code.length + 1⟩)
      { e₁.grow (p.code ++ [0x00]) e.stack with iscompiling := false } := by
    have henv : ∀ x : Environ ε, Halts environ x x x := fun x => .access _ _
    have hcode : Halts (access (compileFcode 0x00)) (e₁.grow p.code e.stack) .noError _ :=
      .access_eq hlast
    have hon : (e₁.grow p.code e.stack).iscompiling = true := hR.compiling
    have hkept : (e₁.grow p.code e.stack).istemp = false := htemp
    have hlen : ((e₁.grow (p.code ++ [0x00]) e.stack).fbrk : Int) - e.fbrk = p.code.length + 1 := by
      show ((e₁.fbrk + (p.code ++ [0x00]).length : Nat) : Int) - e.fbrk = _
      rw [hfbrk, List.length_append, List.length_singleton]
      omega
    rw [fBsemicolon, (henv _).bind_iff, hon, hkept, if_neg (by decide), if_neg (by decide),
      hcode.bind_iff, if_neg (not_not.2 rfl), (henv _).bind_iff]
    dsimp only
    rw [hlen]
    exact .bind (.access _ _) (.pure _ _)
  refine ⟨{ e₁.grow (p.code ++ [0x00]) e.stack with iscompiling := false }, hopen.bind ?_,
    ⟨_, rfl, ?_, hp, hshort⟩, fun i hi => ?_, ?_⟩
  · rw [if_neg (not_not.2 rfl)]
    exact htext.bind hsemi
  · have h := grow_spells e₁ (p.code ++ [0x00]) e.stack
    rwa [hfbrk] at h
  · subst he₁
    exact putBytes_below _ _ hi
  · have hlen : (p.code ++ [0x00]).length = p.code.length + 1 := by rw [List.length_append]; rfl
    subst he₁
    rw [← hlen]
    rfl

theorem Environ.initial_idle (known : Nat → Prop) (size : Nat) (env : ε) (st : List Cell)
    (hsize : 0x1000 + size ≤ 2 ^ 32) :
    Idle known { Environ.initial size env with stack := st } where
  idle := rfl
  settled := rfl
  based := Nat.succ_pos _
  addressed := hsize
  mapped _ _ := if_neg fun h => h.2.2 rfl

/-- The entries of words that stand for themselves. -/
def plainEntry (x : Nat) : Entry ε := ⟨x, false, .func fEnd⟩

theorem plainEntry_named (known : Nat → Prop) : Named known (plainEntry (ε := ε)) :=
  fun _ _ => ⟨rfl, rfl⟩

theorem colonDefinition_implements_count :
    ∃ e', Halts (colonDefinition (fun _ _ => never) (fun _ => .noError) ⟨0, 0⟩
        ((Src.seq (.lit 3) (.seq (.lit 0) (.doLoop false false .index))).tokens plainEntry))
        (Environ.initial 64 ()) (.noError, ⟨0x1000, 19⟩) e' ∧
      Implements countDefs (.fcode (e'.bytesFrom 0x1000) 19)
        (.colon (.seq (.lit 3) (.seq (.lit 0) (.doLoop false false .index)))) ∧
      (∀ i < 0x1000, e'.mem i = 0) ∧ e' =
        { Environ.initial 64 () with
          mem := e'.mem
          fbrk := 0x1013
          iscompiling := false
          tempsp := 0 } :=
  colonDefinition_implements (p := .seq (.lit 3) (.seq (.lit 0) (.doLoop false false .index))) _
    (fun _ => .noError) _ (Environ.initial_idle _ 64 () [] (by decide)) (plainEntry_named _)
    ⟨trivial, trivial, trivial⟩
    ⟨trivial, trivial, trivial⟩ (by decide) ⟨by decide, by decide⟩

theorem Src.Structured.begins (hp : p.Structured) (entry : Nat → Entry ε) : 2 ≤ p.need ∧ ∃ f ts,
    p.tokens entry = control f :: ts ∧ ∀ e : Environ ε, e.stack.length + 2 < stackSize →
      f e = f (beginTempCompile e) := by
  have hbegin : ∀ e : Environ ε, beginTempCompile (beginTempCompile e) = beginTempCompile e := by
    intro e
    have hon : (beginTempCompile e).iscompiling = true := by
      rw [beginTempCompile]
      split_ifs with h
      · exact h
      · rfl
    exact if_pos hon
  have hstack : ∀ e : Environ ε, (beginTempCompile e).stack = e.stack := by
    intro e
    rw [beginTempCompile]
    split_ifs <;> rfl
  have hpushing : ∀ e : Environ ε, e.stack.length + 2 < stackSize → ∀ rest : Tail × Environ ε,
      ifcksp 0 2 e rest = rest ∧ ifcksp 0 2 (beginTempCompile e) rest = rest := by
    intro e he rest
    exact ⟨ifcksp_ok (Nat.zero_le _) he rest,
      ifcksp_ok (Nat.zero_le _) (by rw [hstack]; exact he) rest⟩
  have hmark : ∀ e : Environ ε, e.stack.length + 2 < stackSize →
      fBltmark e = fBltmark (beginTempCompile e) := by
    intro e he
    rw [fBltmark, fBltmark, (hpushing e he _).1, (hpushing e he _).2, hbegin]
  have hdo : ∀ x, ∀ e : Environ ε, e.stack.length + 2 < stackSize →
      compileDo x e = compileDo x (beginTempCompile e) := by
    intro x e he
    rw [compileDo, compileDo, (hpushing e he _).1, (hpushing e he _).2, hbegin]
  have hif : ∀ e : Environ ε, e.stack.length + 2 < stackSize →
      fIf e = fIf (beginTempCompile e) := by
    intro e _
    rw [fIf, fIf, hbegin]
  cases p with
  | ifThen a => exact ⟨Nat.le_add_left 2 _, fIf, _, rfl, hif⟩
  | ifElse a b => exact ⟨by simp [Src.need], fIf, _, rfl, hif⟩
  | untilLoop a => exact ⟨Nat.le_add_left 2 _, fBltmark, _, rfl, hmark⟩
  | again a => exact ⟨Nat.le_add_left 2 _, fBltmark, _, rfl, hmark⟩
  | whileLoop a b => exact ⟨by simp [Src.need], fBltmark, _, rfl, hmark⟩
  | doLoop question plus a =>
    cases question with
    | false => exact ⟨Nat.le_max_left 2 _, fDo, _, rfl, hdo 0x717⟩
    | true => exact ⟨Nat.le_max_left 2 _, fQdo, _, rfl, hdo 0x718⟩
  | caseOf c =>
    refine ⟨Nat.le_max_left 2 _, fBcase, _, rfl, fun e he => ?_⟩
    rw [fBcase, fBcase, (hpushing e he _).1, (hpushing e he _).2, hbegin]
  | skip | seq | word | lit | leave | index | outerIndex | exit => exact hp.elim

theorem resolve_iff {exec : Executes ε} (hcomp : e.iscompiling = true) (htemp : e.istemp = true)
    (hsp : e.tempsp = e.stack.length) (hmem : e.malloc ((e.fbrk : Int) - e.tempbrk) = true) :
    Halts (resolveTempCompile exec) e r e' ↔
      Halts (exec (e.bytesFrom e.tempbrk) ((e.fbrk : Int) - e.tempbrk))
        { e with iscompiling := false, istemp := false, fbrk := e.tempbrk } r e' := by
  have henv : Halts environ e e e := .access _ _
  have hset : Halts (setEnviron fun e => { e with
    iscompiling := false, istemp := false, fbrk := e.tempbrk }) e () _ := .access _ _
  rw [resolveTempCompile, henv.bind_iff, hcomp, htemp, if_neg (by simp [hsp]), hmem,
    if_neg (by decide), hset.bind_iff]

/-- Without memory for the copy nothing is executed, and the definition is not ended. -/
theorem resolve_outOfMemory (exec : Executes ε) (hcomp : e.iscompiling = true)
    (htemp : e.istemp = true) (hsp : e.tempsp = e.stack.length)
    (hmem : e.malloc ((e.fbrk : Int) - e.tempbrk) = false) :
    Halts (resolveTempCompile exec) e .eOutOfMemory e := by
  have henv : Halts environ e e e := .access _ _
  rw [resolveTempCompile, henv.bind_iff, hcomp, htemp, if_neg (by simp [hsp]), hmem,
    if_pos (by decide)]
  exact .pure _ _

/-- A first word that does the same in two states leads to the same from both. -/
theorem interpret_from {exec : Executes ε} {f : Command ε} (h : f e = f e₀) :
    Halts (interpret exec (control f :: ts)) e r e' ↔
      Halts (interpret exec (control f :: ts)) e₀ r e' := by
  have hword : ∀ r x, Halts (interpretToken exec (control f)) e r x ↔
      Halts (interpretToken exec (control f)) e₀ r x := by
    intro r x
    rw [control_iff, control_iff, runCommand, (Halts.access f e).bind_iff,
      (Halts.access f e₀).bind_iff, h]
  rw [interpret]
  constructor
  · intro hrun
    obtain ⟨r₁, e₁, hfirst, hrest⟩ := hrun.of_bind
    exact ((hword _ _).1 hfirst).bind hrest
  · intro hrun
    obtain ⟨r₁, e₁, hfirst, hrest⟩ := hrun.of_bind
    exact ((hword _ _).2 hfirst).bind hrest

/-- The state in which the code of a control structure is executed that is typed in `e`. -/
def Environ.temporary (e : Environ ε) (bs : List UInt8) : Environ ε :=
  { e with
    mem := putBytes e.mem e.fbrk bs
    iscompiling := false
    istemp := false
    tempsp := e.stack.length
    tempbrk := e.fbrk }

/-- What a control structure that is typed outside a definition is compiled to stands at the end
of the dictionary as a temporary definition, when its last word resolves it. -/
theorem typed_resolves (exec : Executes ε) (hI : Idle defs.known e) (hN : Named defs.known entry)
    (hs : p.Structured) (hp : p.Closed defs.known 0) (hplain : p.Plain)
    (hshort : p.code.length < 0x8000) (hroom : Room e [] e.stack p.need p.code.length) :
    ∃ x : Environ ε, x.iscompiling = true ∧ x.istemp = true ∧ x.tempsp = x.stack.length ∧
      (x.fbrk : Int) - x.tempbrk = p.code.length ∧ Spells (x.bytesFrom x.tempbrk) 0 p.code ∧
      x.malloc = e.malloc ∧ { x with
        iscompiling := false, istemp := false, fbrk := x.tempbrk } = e.temporary p.code ∧
      ∀ r e', Halts (interpret exec (p.tokens entry)) e r e' ↔
        Halts (resolveTempCompile exec) x r e' := by
  obtain ⟨hneed, f, ts, htokens, hfirst⟩ := hs.begins entry
  have hcells := hroom.cells
  have hbegin := hfirst e (by omega)
  generalize he₀ : beginTempCompile e = e₀ at hbegin
  rw [beginTempCompile, hI.idle, if_neg Bool.false_ne_true] at he₀
  have hR : Ready defs.known e₀ := he₀ ▸ ⟨rfl, hI.based, hI.addressed, hI.mapped⟩
  have hstart : e₀.grow [] e.stack = e₀ := he₀ ▸ rfl
  have hroom₀ : Room e₀ [] e.stack p.need p.code.length := he₀ ▸ ⟨hroom.cells, hroom.bytes⟩
  have hsp : e₀.tempsp = e.stack.length := he₀ ▸ rfl
  have hbrk : e₀.tempbrk = e₀.fbrk := he₀ ▸ rfl
  have htemp : e₀.istemp = true := he₀ ▸ rfl
  have hcompiles : p.Compiles entry exec e₀ := p.compiles hR hN 0 hp hplain hshort
  obtain ⟨us, g, hlast, hbuild⟩ := hcompiles.1 hs
  obtain ⟨x, hus, hg⟩ := hbuild [] e.stack hroom₀ fun _ => hsp.le
  rw [hstart] at hus
  rw [List.nil_append] at hg
  have hmark : (e₀.grow p.code e.stack).tempbrk = e₀.fbrk := hbrk
  refine ⟨e₀.grow p.code e.stack, hR.compiling, htemp, hsp, ?_, ?_, ?_, ?_, fun r e' => ?_⟩
  · show ((e₀.fbrk + p.code.length : Nat) : Int) - e₀.tempbrk = _
    rw [hbrk]
    omega
  · rw [hmark]
    exact grow_spells _ _ _
  · exact he₀ ▸ rfl
  · subst he₀
    rfl
  · rw [htokens, interpret_from hbegin, ← htokens, hlast, interpret_append_iff hus,
      interpret_singleton_iff, control_resolve_iff hg]

theorem typed_executes (exec : Executes ε) (hI : Idle defs.known e) (hN : Named defs.known entry)
    (hs : p.Structured) (hp : p.Closed defs.known 0) (hplain : p.Plain)
    (hshort : p.code.length < 0x8000) (hroom : Room e [] e.stack p.need p.code.length)
    (hmem : e.malloc p.code.length = true) :
    ∃ buf, Spells buf 0 p.code ∧ ∀ r e', Halts (interpret exec (p.tokens entry)) e r e' ↔
      Halts (exec buf p.code.length) (e.temporary p.code) r e' := by
  obtain ⟨x, hon, htemp, hsp, hlen, hcode, hmalloc, hend, htext⟩ :=
    typed_resolves exec hI hN hs hp hplain hshort hroom
  refine ⟨x.bytesFrom x.tempbrk, hcode, fun r e' => ?_⟩
  rw [htext, resolve_iff hon htemp hsp (by rw [hlen, hmalloc, hmem]), hlen, hend]

/-- Where there is no memory for the copy, the text ends inside the temporary definition. -/
theorem typed_outOfMemory (exec : Executes ε) (hI : Idle defs.known e)
    (hN : Named defs.known entry) (hs : p.Structured) (hp : p.Closed defs.known 0)
    (hplain : p.Plain) (hshort : p.code.length < 0x8000)
    (hroom : Room e [] e.stack p.need p.code.length) (hmem : e.malloc p.code.length = false) :
    ∃ e', Halts (interpret exec (p.tokens entry)) e .eOutOfMemory e' ∧ e'.iscompiling = true ∧
      e'.istemp = true := by
  obtain ⟨x, hon, htemp, hsp, hlen, -, hmalloc, -, htext⟩ :=
    typed_resolves exec hI hN hs hp hplain hshort hroom
  have hresolve : Halts (resolveTempCompile exec) x .eOutOfMemory x :=
    resolve_outOfMemory exec hon htemp hsp (by rw [hlen, hmalloc, hmem])
  exact ⟨x, (htext _ _).2 hresolve, hon, htemp⟩

/-- A control structure that is typed outside a definition does what it means, and leaves the
dictionary as it was: where there is room for its code and for the copy, its branches stay within
32 KiB, and no part of it is misread by `then`. -/
theorem typed_iff {T : Xtoks ε} (hT : Compiled defs T) (depth : Nat) (hI : Idle defs.known e)
    (hN : Named defs.known entry) (hs : p.Structured) (hp : p.Closed defs.known 0)
    (hplain : p.Plain) (hshort : p.code.length < 0x8000)
    (hroom : Room e [] e.stack p.need p.code.length) (hmem : e.malloc p.code.length = true)
    (hfs : Framed e.rstack fs) (r : Retcode) (s : Store ε) :
    (∃ e', Halts (interpret (executeAt T (depth + 1)) (p.tokens entry)) e r e' ∧ e'.store = s ∧
        e'.fbrk = e.fbrk ∧ e'.iscompiling = false ∧ e'.istemp = false ∧
        (∀ i < e.fbrk, e'.mem i = e.mem i) ∧
        (r = .noError → e'.input = e.input ∧ e'.rstack = e.rstack)) ↔
      Halts (defs.runAt (depth + 1) p fs) e.store r s := by
  obtain ⟨buf, hcode, htext⟩ := typed_executes (executeAt T (depth + 1)) hI hN hs hp
    hplain hshort hroom hmem
  have hcarries : CarriesOut (executeAt T (depth + 1) buf p.code.length) (e.temporary p.code)
      (defs.runAt (depth + 1) p fs) :=
    execute_carries hT.toControls (hT.serves (hT.executed depth)) p hp (by omega) hcode (.inl rfl)
      (e.temporary p.code) rfl hfs
  constructor
  · rintro ⟨e', hrun, rfl, -⟩
    obtain ⟨r', s', hmeans⟩ := hcarries.ends ⟨r, e', (htext r e').1 hrun⟩
    obtain ⟨-, loc, rs, hrun', -⟩ := hcarries.comes r' s' hmeans
    obtain ⟨rfl, rfl⟩ := ((htext r e').1 hrun).unique hrun'
    exact hmeans
  · intro hmeans
    obtain ⟨-, loc, rs, hrun, hsame⟩ := hcarries.comes r s hmeans
    refine ⟨_, (htext _ _).2 hrun, rfl, rfl, rfl, rfl,
      fun i hi => putBytes_below _ _ hi, fun hr => ?_⟩
    obtain ⟨rfl, rfl⟩ := hsame hr
    exact ⟨rfl, rfl⟩

theorem typed_iff_count :
    ∃ e', Halts (interpret (executeAt (countDefs.table 0x801) 1)
        ((Src.doLoop false false .index).tokens plainEntry))
        { Environ.initial 64 () with stack := [0, 3] } .noError e' ∧ e'.store = ⟨[2, 1, 0], ()⟩ ∧
      e'.fbrk = 0x1000 ∧ e'.iscompiling = false ∧ e'.istemp = false ∧
      (∀ i < 0x1000, e'.mem i = 0) ∧
      (Retcode.noError = .noError → e'.input = (Environ.initial 64 ()).input ∧ e'.rstack = []) :=
  (typed_iff (p := .doLoop false false .index) countDefs_compiled 0
    (Environ.initial_idle _ 64 () [0, 3] (by decide))
    (plainEntry_named _) trivial trivial trivial (by decide) ⟨by decide, by decide⟩ rfl
    .nil .noError ⟨[2, 1, 0], ()⟩).2 ⟨5, rfl⟩

/-- Where the part in front of `then` ends in the bytes of a branch that is not patched, as the
literal 130000 does, `then` asks for the branch of an `if` in front of it. The part has room, less
than 32 KiB of code, and no part in it is misread. -/
theorem ifThen_misread (exec : Executes ε) (createNewdef : NewDef → Retcode) (newdef : NewDef)
    (hI : Idle defs.known e) (hN : Named defs.known entry) (hp : p.Closed defs.known 0)
    (hplain : p.Plain) (hends : EndsInBbranch p.code) (hshort : p.code.length < 0x8000)
    (hst : e.stack.length < 2) (hneed : p.need + 4 ≤ stackSize)
    (hbytes : e.fbrk + (p.code.length + 4) < e.fend) :
    (∃ e', Halts (interpret exec ((Src.ifThen p).tokens entry)) e .eStackUnderflow e') ∧
      ∃ d e', Halts (colonDefinition exec createNewdef newdef ((Src.ifThen p).tokens entry)) e
        (.eStackUnderflow, d) e' := by
  have hkept : ∀ e₁ : Environ ε, Ready defs.known e₁ → e₁.stack = e.stack → e₁.fbrk = e.fbrk →
      e₁.fend = e.fend → (e₁.istemp = true → e₁.tempsp ≤ e.stack.length) →
      ∃ e', Halts (interpret exec ((Src.ifThen p).tokens entry)) e₁ .eStackUnderflow e' := by
    intro e₁ hR hstack hfbrk hfend htemp
    have hcompiles : p.Compiles entry exec e₁ := p.compiles hR hN 0 hp hplain hshort
    have h := ifThen_fails [] e.stack hR hcompiles.2 hends hst
      ⟨by omega, by rw [List.length_nil, hfbrk, hfend]; omega⟩ htemp
    rwa [← hstack, grow_nil] at h
  constructor
  · have hfirst : fIf e = fIf { e with
        tempsp := e.stack.length, istemp := true, tempbrk := e.fbrk, iscompiling := true } := by
      rw [fIf, fIf, beginTempCompile, hI.idle, if_neg Bool.false_ne_true]
      rfl
    obtain ⟨e', hrun⟩ := hkept { e with
      tempsp := e.stack.length, istemp := true, tempbrk := e.fbrk, iscompiling := true }
      ⟨rfl, hI.based, hI.addressed, hI.mapped⟩ rfl rfl rfl fun _ => le_rfl
    exact ⟨e', (interpret_from hfirst).2 hrun⟩
  · have hopen : Halts (access (fBcolon newdef)) e (.noError, ⟨e.fbrk, newdef.len⟩)
        { e with iscompiling := true, tempsp := e.stack.length } :=
      .access_eq (by rw [fBcolon, hI.idle, if_neg Bool.false_ne_true])
    obtain ⟨e', hrun⟩ := hkept { e with iscompiling := true, tempsp := e.stack.length }
      ⟨rfl, hI.based, hI.addressed, hI.mapped⟩ rfl rfl rfl fun _ => le_rfl
    refine ⟨⟨e.fbrk, newdef.len⟩, e', hopen.bind ?_⟩
    rw [if_neg (not_not.2 rfl)]
    exact hrun.bind (.pure _ _)

theorem ifThen_misread_literal :
    (∃ e', Halts (interpret (fun _ _ => never)
        ((Src.ifThen (.lit 0x130000)).tokens plainEntry)) (Environ.initial 64 ()) .eStackUnderflow
        e') ∧
      ∃ d e', Halts (colonDefinition (fun _ _ => never) (fun _ => .noError) ⟨0, 0⟩
        ((Src.ifThen (.lit 0x130000)).tokens plainEntry)) (Environ.initial 64 ())
        (.eStackUnderflow, d) e' :=
  ifThen_misread (p := .lit 0x130000) _ (fun _ => .noError) _
    (Environ.initial_idle countDefs.known 64 () [] (by decide))
    (plainEntry_named _) trivial trivial (by decide) (by decide) (by decide) (by decide)
    (by decide)

end System

end Pegasos2.Forth
