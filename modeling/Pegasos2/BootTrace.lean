import Pegasos2.BootAcceptance
import Pegasos2.ByteLooks

namespace Pegasos2.BootKernel
open Program Look
set_option autoImplicit true

/-- A comparison of the byte `i`, and what follows it. -/
def lookIs (i : Nat) (v : UInt8) (k : Look UInt8 Bool) : Look UInt8 Bool := do
  let b ← peek i
  if b ≠ v then pure false else k

/-- The type and the machine are both read before they are compared. -/
def lookKind : Look UInt8 Bool := do
  let type ← lookBe16 16
  let machine ← lookBe16 18
  pure (if type ≠ 2 ∧ type ≠ 3 then false else if machine ≠ 20 then false else true)

def lookIsExec (load loadlen : Nat) : Look UInt8 Bool :=
  if load = 0 ∨ loadlen < 32 then pure false
  else lookIs 0 0x7F (lookIs 1 0x45 (lookIs 2 0x4C (lookIs 3 0x46
    (lookIs 4 1 (lookIs 5 2 (lookIs 6 1 lookKind))))))

def lookEhdr : Look UInt8 Ehdr := do
  let entry ← lookBe32 24
  let phoff ← lookBe32 28
  let phentsz ← lookBe16 42
  let phnum ← lookBe16 44
  pure ⟨entry, phoff, phentsz, phnum⟩

def lookPhdr (e : Ehdr) (i : Nat) : Look UInt8 Phdr := do
  let ph := e.phoff + i * e.phentsz
  let type ← lookBe32 ph
  let offset ← lookBe32 (ph + 4)
  let vaddr ← lookBe32 (ph + 8)
  let filesz ← lookBe32 (ph + 16)
  let memsz ← lookBe32 (ph + 20)
  pure ⟨type, offset, vaddr, filesz, memsz⟩

def lookPass1 (e : Ehdr) : Nat → Look UInt8 (Except Reject (Bool × Nat))
  | 0 => pure (.ok (false, 0))
  | n + 1 => do
    match ← lookPass1 e n with
    | .error d => pure (.error d)
    | .ok acc => do
      let h ← lookPhdr e n
      pure (h.check e acc n)

def lookValidate (load loadlen : Nat) : Look UInt8 (Except Reject (Ehdr × Nat)) := do
  let exec ← lookIsExec load loadlen
  if exec = false then pure (.error .headerValidation)
  else do
    let e ← lookEhdr
    if e.phoff = 0 ∨ e.phnum = 0 then pure (.error .noProgramHeaders)
    else if e.phentsz < minPhentsz ∨ e.phentsz > maxPhentsz then
      pure (.error (.badPhentsz e.phentsz))
    else if e.phnum > maxPhnum then pure (.error (.phnumExceedsCap e.phnum))
    else if (u32AddOvf e.phoff (e.phnum * e.phentsz)).2 then pure (.error .tableOverflow)
    else do
      let pass ← lookPass1 e e.phnum
      pure (pass.bind fun acc =>
        if acc.1 = false then .error (.entryOutside e.entry) else .ok (e, acc.2))

/-- The memory, and the offsets in the image that have been read so far. -/
structure Traced where
  ram : Ram
  reads : List Nat

/-- Examines the image in the memory as it is now. -/
def examine (load : Nat) (p : Look UInt8 α) : StateM Traced α := fun t =>
  (p.run (view t.ram.mem load), { t with reads := t.reads ++ p.examined (view t.ram.mem load) })

def storeByte (a : Nat) (v : UInt8) : StateM Traced Unit := fun t =>
  ((), { t with ram := t.ram.store a v })

/-- `for (j = 0; j < n; j++) dst[j] = src[j]` -/
def tracedCopy (load dst offset : Nat) : Nat → StateM Traced Unit
  | 0 => pure ()
  | n + 1 => do
    tracedCopy load dst offset n
    let b ← examine load (peek (offset + n))
    storeByte (dst + n) b

def tracedZero (dst : Nat) : Nat → StateM Traced Unit
  | 0 => pure ()
  | n + 1 => do
    tracedZero dst n
    storeByte (dst + n) 0

def tracedPlace (load : Nat) (e : Ehdr) (i : Nat) : StateM Traced Unit := do
  let h ← examine load (lookPhdr e i)
  if h.Occupies then
    tracedCopy load h.vaddr h.offset h.filesz
    tracedZero (h.vaddr + h.filesz) (h.memsz - h.filesz)
  else pure ()

def tracedPass2 (load : Nat) (e : Ehdr) : Nat → StateM Traced Unit
  | 0 => pure ()
  | n + 1 => do
    tracedPass2 load e n
    tracedPlace load e n

def tracedLoad (load loadlen : Nat) : StateM Traced Retcode := do
  match ← examine load (lookValidate load loadlen) with
  | .error _ => pure .eBadImage
  | .ok x => do
    tracedPass2 load x.1 x.1.phnum
    pure .noError

/-- The offsets of the bytes that `elf32_ppc_be_is_exec` reads. -/
def execReads (eh : Buf) (load loadlen : Nat) : List Nat :=
  if load = 0 ∨ loadlen < 32 then []
  else if eh 0 ≠ 0x7F then [0]
  else if eh 1 ≠ 0x45 then [0, 1]
  else if eh 2 ≠ 0x4C then [0, 1, 2]
  else if eh 3 ≠ 0x46 then [0, 1, 2, 3]
  else if eh 4 ≠ 1 then [0, 1, 2, 3, 4]
  else if eh 5 ≠ 2 then [0, 1, 2, 3, 4, 5]
  else if eh 6 ≠ 1 then [0, 1, 2, 3, 4, 5, 6]
  else [0, 1, 2, 3, 4, 5, 6, 16, 17, 18, 19]

/-- The offsets of `entry`, `phoff`, `phentsz` and `phnum`. -/
def headerReads : List Nat := List.range' 24 4 ++ List.range' 28 4 ++ [42, 43] ++ [44, 45]

/-- The offsets of the fields of the program header at `ph`. -/
def phdrReads (ph : Nat) : List Nat := List.range' ph 12 ++ List.range' (ph + 16) 8

/-- The offsets that pass 1 reads. It goes on to entry `n` if it has accepted those before. -/
def pass1Reads (eh : Buf) (e : Ehdr) : Nat → List Nat
  | 0 => []
  | n + 1 =>
    match pass1 eh e n with
    | .error _ => pass1Reads eh e n
    | .ok _ => pass1Reads eh e n ++ phdrReads (e.phoff + n * e.phentsz)

/-- The offsets of the source bytes of a segment. -/
def sourceReads (h : Phdr) : List Nat := if h.Occupies then List.range' h.offset h.filesz else []

/-- The offsets that pass 2 reads. -/
def pass2Reads (load : Nat) (e : Ehdr) (r : Ram) : Nat → List Nat
  | 0 => []
  | n + 1 => pass2Reads load e r n ++ phdrReads (e.phoff + n * e.phentsz) ++
      sourceReads (phdr (view (pass2 load e n r).mem load) e n)

/-- The offsets that are read once the header has been found to have a table. -/
def tableReads (s : LoadState) (load loadlen : Nat) : List Nat :=
  let eh := view s.mem load
  let e := ehdr eh
  pass1Reads eh e e.phnum ++
    match validate s.mem load loadlen with
    | .error _ => []
    | .ok _ => pass2Reads load e ⟨s.mem, []⟩ e.phnum

instance (e : Ehdr) : Decidable e.HasTable :=
  decidable_of_iff (e.phoff ≠ 0 ∧ e.phnum ≠ 0 ∧ (minPhentsz ≤ e.phentsz ∧ e.phentsz ≤ maxPhentsz) ∧
    e.phnum ≤ maxPhnum ∧ e.phoff + e.phnum * e.phentsz < 2 ^ 32)
    ⟨fun ⟨h, h', h'', h₃, h₄⟩ => ⟨h, h', h'', h₃, h₄⟩,
      fun h => ⟨h.phoff, h.phnum, h.phentsz, h.few, h.fits⟩⟩

/-- The offsets that are read, worked out. -/
def imageReads (s : LoadState) (load loadlen : Nat) : List Nat :=
  let eh := view s.mem load
  execReads eh load loadlen ++
    if elf32PpcBeIsExec s.mem load loadlen then
      headerReads ++ if (ehdr eh).HasTable then tableReads s load loadlen else []
    else []

theorem run_ehdr (b : Buf) : lookEhdr.run b = ehdr b := rfl

theorem examined_ehdr (b : Buf) : lookEhdr.examined b = headerReads := rfl

theorem examined_phdr (b : Buf) (e : Ehdr) (i : Nat) :
    (lookPhdr e i).examined b = phdrReads (e.phoff + i * e.phentsz) := rfl

theorem run_is (b : Buf) (i : Nat) (v : UInt8) (k : Look UInt8 Bool) :
    (lookIs i v k).run b = if b i ≠ v then false else k.run b := by
  rw [lookIs, run_bind, run_peek, apply_ite (run b), run_pure]

theorem examined_is (b : Buf) (i : Nat) (v : UInt8) (k : Look UInt8 Bool) :
    (lookIs i v k).examined b = i :: if b i ≠ v then [] else k.examined b := by
  rw [lookIs, examined_bind, run_peek, apply_ite (examined b)]
  rfl

theorem run_isExec (m : Nat → UInt8) (load loadlen : Nat) :
    (lookIsExec load loadlen).run (view m load) = elf32PpcBeIsExec m load loadlen := by
  have hkind : lookKind.run (view m load) =
      if be16 (view m load) 16 ≠ 2 ∧ be16 (view m load) 16 ≠ 3 then false
      else if be16 (view m load) 18 ≠ 20 then false else true := rfl
  rw [lookIsExec, elf32PpcBeIsExec, apply_ite (run (view m load))]
  simp only [run_is, run_pure, hkind, ite_or]

theorem examined_isExec (b : Buf) (load loadlen : Nat) :
    (lookIsExec load loadlen).examined b = execReads b load loadlen := by
  have hkind : lookKind.examined b = [16, 17, 18, 19] := rfl
  have hnone : (pure false : Look UInt8 Bool).examined b = [] := rfl
  rw [lookIsExec, execReads, apply_ite (examined b), hnone]
  simp only [examined_is, hkind]
  split_ifs <;> rfl

theorem run_pass1 (b : Buf) (e : Ehdr) (n : Nat) : (lookPass1 e n).run b = pass1 b e n := by
  induction n with
  | zero => rfl
  | succ n ih =>
    rw [lookPass1, run_bind, ih, pass1]
    cases pass1 b e n <;> rfl

theorem examined_pass1 (b : Buf) (e : Ehdr) (n : Nat) :
    (lookPass1 e n).examined b = pass1Reads b e n := by
  induction n with
  | zero => rfl
  | succ n ih =>
    rw [lookPass1, examined_bind, ih, run_pass1, pass1Reads]
    cases pass1 b e n with
    | error d => exact List.append_nil _
    | ok acc =>
      dsimp only
      rw [examined_bind, examined_phdr]
      exact congrArg _ (List.append_nil _)

theorem run_validate (m : Nat → UInt8) (load loadlen : Nat) :
    (lookValidate load loadlen).run (view m load) = validate m load loadlen := by
  rw [lookValidate, run_bind, run_isExec, validate]
  by_cases hexec : elf32PpcBeIsExec m load loadlen = false
  · rw [if_pos hexec, if_pos hexec]
    rfl
  · rw [if_neg hexec, if_neg hexec, run_bind, run_ehdr]
    split_ifs
    · rfl
    · rfl
    · rfl
    · rfl
    · rw [run_bind, run_pass1, run_pure]

theorem examined_validate (m : Nat → UInt8) (load loadlen : Nat) :
    (lookValidate load loadlen).examined (view m load) =
      execReads (view m load) load loadlen ++
        if elf32PpcBeIsExec m load loadlen then
          headerReads ++ if (ehdr (view m load)).HasTable then
            pass1Reads (view m load) (ehdr (view m load)) (ehdr (view m load)).phnum else []
        else [] := by
  rw [lookValidate, examined_bind, examined_isExec, run_isExec]
  congr 1
  cases hexec : elf32PpcBeIsExec m load loadlen with
  | false => rfl
  | true =>
    have htable := Ehdr.hasTable_iff (view m load)
    rw [if_neg (by decide), if_pos rfl, examined_bind, examined_ehdr, run_ehdr]
    congr 1
    by_cases h : (ehdr (view m load)).HasTable
    · obtain ⟨hsome, hsize, hfew, hovf⟩ := htable.1 h
      rw [if_neg hsome, if_neg hsize, if_neg hfew, if_neg hovf, if_pos h, examined_bind,
        examined_pass1]
      exact List.append_nil _
    · rw [if_neg h]
      split_ifs with hsome hsize hfew hovf
      · rfl
      · rfl
      · rfl
      · rfl
      · exact absurd (htable.2 ⟨hsome, hsize, hfew, hovf⟩) h

theorem run_then {x : StateM σ α} {f : α → StateM σ β} (h : x.run s = (a, s')) :
    (x >>= f).run s = (f a).run s' := by
  rw [StateT.run_bind, h]
  rfl

theorem tracedCopy_run (load dst offset n : Nat) (t : Traced) :
    (tracedCopy load dst offset n).run t =
      ((), ⟨copyLoop dst (load + offset) n t.ram, t.reads ++ List.range' offset n⟩) := by
  induction n with
  | zero => rw [List.range'_zero, List.append_nil]; rfl
  | succ n ih =>
    have hbyte (r : Ram) : view r.mem load (offset + n) = view r.mem (load + offset) n := by
      rw [view, view, Nat.add_assoc]
    rw [tracedCopy, run_then ih, List.range'_1_concat, ← List.append_assoc]
    show ((), Traced.mk ((copyLoop dst (load + offset) n t.ram).store (dst + n)
      (view (copyLoop dst (load + offset) n t.ram).mem load (offset + n))) _) = _
    rw [hbyte]
    rfl

theorem tracedZero_run (dst n : Nat) (t : Traced) :
    (tracedZero dst n).run t = ((), { t with ram := zeroLoop dst n t.ram }) := by
  induction n with
  | zero => rfl
  | succ n ih =>
    rw [tracedZero, run_then ih]
    rfl

theorem tracedPlace_run (load : Nat) (e : Ehdr) (i : Nat) (t : Traced) :
    (tracedPlace load e i).run t = ((), ⟨placePhdr load e t.ram i, t.reads ++
      phdrReads (e.phoff + i * e.phentsz) ++ sourceReads (phdr (view t.ram.mem load) e i)⟩) := by
  have hheader : (examine load (lookPhdr e i)).run t = (phdr (view t.ram.mem load) e i,
      ⟨t.ram, t.reads ++ phdrReads (e.phoff + i * e.phentsz)⟩) := rfl
  rw [tracedPlace, run_then hheader, placePhdr, sourceReads]
  generalize phdr (view t.ram.mem load) e i = h
  split_ifs with hocc
  · rw [run_then (tracedCopy_run _ _ _ _ _), tracedZero_run]
    rfl
  · rw [List.append_nil]
    rfl

theorem tracedPass2_run (load : Nat) (e : Ehdr) (n : Nat) (t : Traced) :
    (tracedPass2 load e n).run t =
      ((), ⟨pass2 load e n t.ram, t.reads ++ pass2Reads load e t.ram n⟩) := by
  induction n with
  | zero => rw [pass2Reads, List.append_nil]; rfl
  | succ n ih =>
    rw [tracedPass2, run_then ih, tracedPlace_run, pass2Reads, ← List.append_assoc,
      ← List.append_assoc]
    rfl

/-- The loader with the record does what the loader does, and what it reads through the image
pointer are the bytes at `imageReads`. -/
theorem tracedLoad_run (s : LoadState) (load loadlen : Nat) :
    (tracedLoad load loadlen).run ⟨⟨s.mem, []⟩, []⟩ =
      ((elf32PpcBeLoad s load loadlen).ret,
        ⟨⟨(elf32PpcBeLoad s load loadlen).state.mem, (elf32PpcBeLoad s load loadlen).stores⟩,
          imageReads s load loadlen⟩) := by
  have hcheck : (examine load (lookValidate load loadlen)).run ⟨⟨s.mem, []⟩, []⟩ =
      (validate s.mem load loadlen,
        ⟨⟨s.mem, []⟩, (lookValidate load loadlen).examined (view s.mem load)⟩) :=
    congrArg (·, Traced.mk ⟨s.mem, []⟩ _) (run_validate s.mem load loadlen)
  rw [tracedLoad, run_then hcheck, elf32PpcBeLoad, imageReads, examined_validate]
  cases hval : validate s.mem load loadlen with
  | error d =>
    simp only [tableReads, hval, List.append_nil]
    rfl
  | ok x =>
    obtain ⟨hload, hlen, hacc⟩ := (validate_ok_iff s.mem load loadlen).1 ⟨x, hval⟩
    have hexec := (elf32PpcBeIsExec_iff s.mem load loadlen).2 ⟨hload, hlen, hacc.identified⟩
    obtain ⟨he, -⟩ := validate_ok hval
    rw [if_pos hexec, if_pos hexec, if_pos hacc.table, if_pos hacc.table, tableReads, hval]
    dsimp only
    rw [run_then (tracedPass2_run _ _ _ _), he]
    simp only [List.append_assoc]
    rfl

/-- The offsets of all bytes that `elf32_ppc_be_load` reads through the image pointer. -/
def loaderReads (s : LoadState) (load loadlen : Nat) : List Nat :=
  ((tracedLoad load loadlen).run ⟨⟨s.mem, []⟩, []⟩).2.reads

theorem loaderReads_eq (s : LoadState) (load loadlen : Nat) :
    loaderReads s load loadlen = imageReads s load loadlen := by
  rw [loaderReads, tracedLoad_run]

end Pegasos2.BootKernel
