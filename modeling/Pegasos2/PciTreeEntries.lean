import Pegasos2.PciTree
import Pegasos2.PciResources

namespace Pegasos2.Pci
set_option autoImplicit true

/-- An address range as it stands in the report of the walker. -/
structure Assignment where
  loc : Loc
  offset : Nat
  space : Space
  is64 : Bool
  size : Word
  base : Word
  deriving DecidableEq, Repr

def Line.assignment : Line → Option Assignment
  | .bar loc offset space is64 size base => some ⟨loc, offset, space, is64, size, base⟩
  | _ => none

def assignments (out : List Line) : List Assignment := out.filterMap Line.assignment

theorem assignments_append (out out' : List Line) :
    assignments (out ++ out') = assignments out ++ assignments out' :=
  List.filterMap_append

namespace Assignment

def range (a : Assignment) : Range := ⟨a.loc, a.offset, a.space, a.base.toNat, a.size.toNat⟩

/-- The space code and the prefetch bit of a range, at its register. -/
def physhi (a : Assignment) : Word :=
  Pci.physhi a.loc (if a.space = .pref then 1#32 else 0#32)
    (if a.space = .io then 1#32 else if a.is64 then 3#32 else 2#32) a.offset

def regEntry (a : Assignment) : PciEntry := ⟨a.physhi, 0#32, 0#32, 0#32, a.size⟩

def assignedEntry (a : Assignment) : PciEntry := ⟨a.physhi, 0#32, a.base, 0#32, a.size⟩

end Assignment

theorem ranges_eq_map (out : List Line) :
    ranges out = (assignments out).map Assignment.range := by
  rw [ranges, assignments, List.map_filterMap]
  congr
  funext x
  cases x <;> rfl

/-- What the installer reads back of a register. -/
def treeProbe (r : Reg) : Probe :=
  let addrMask := barAddrMask (isIo r.val)
  let set := (r.write ((r.val &&& ~~~addrMask) ||| addrMask)).val
  if set = 0#32 then ⟨0#32, 0#32, wide r.val⟩
  else ⟨~~~(set &&& addrMask) + 1#32, r.val &&& ~~~addrMask, wide r.val⟩

theorem treeProbe_is64 (r : Reg) : (treeProbe r).is64 = wide r.val := by
  rw [treeProbe]
  split_ifs <;> rfl

theorem treeProbe_flags (h : (treeProbe r).size ≠ 0#32) :
    (treeProbe r).flags = r.val &&& ~~~barAddrMask (isIo r.val) := by
  simp only [treeProbe] at h ⊢
  split_ifs at h ⊢ with hset
  · exact absurd rfl h
  · rfl

theorem lowBits_eq (v : Word) :
    (if isIo v then v &&& 0x3#32 else v &&& 0xF#32) = v &&& ~~~barAddrMask (isIo v) := by
  cases isIo v <;> rfl

theorem barProbe_eq (c : Config) (h : (c (dword offset)).w1c = 0#32) :
    barProbe funcAccess c offset = (treeProbe (c (dword offset)), c) := by
  have hback : ∀ v, (c.write (dword offset) v).write (dword offset) (c (dword offset)).val = c := by
    intro v
    rw [Config.write, Config.write_same, Reg.write_restore _ _ h, Config.write,
      Function.update_idem, Function.update_eq_self]
  have hio : ((c (dword offset)).val &&& 0x1#32 != 0#32) = isIo (c (dword offset)).val := rfl
  have hwide : (!isIo (c (dword offset)).val && (c (dword offset)).val &&& 0x6#32 == 0x4#32) =
      wide (c (dword offset)).val := by
    rw [isIo, wide, bne, Bool.not_not]
  simp only [barProbe, funcAccess, hback, Config.write_same, hio, hwide, treeProbe, lowBits_eq]
  rw [← barAddrMask]
  split_ifs <;> rfl

/-- The range in slot `i`, as far as the register tells. -/
def heldIn (loc : Loc) (r : Reg) (i : Nat) : Option Assignment :=
  if (treeProbe r).size = 0#32 then none
  else some ⟨loc, 0x10 + i * 4, barSpace (isIo r.val) (treeProbe r).flags, wide r.val,
    (treeProbe r).size, r.val &&& barAddrMask (isIo r.val)⟩

/-- The slot that the installer goes to after slot `i`. -/
def heldNext (r : Reg) (i : Nat) : Nat := if wide r.val then i + 2 else i + 1

/-- The ranges that the installer finds in the slots from `i` on. -/
def heldFrom (loc : Loc) (c : Config) : Nat → Nat → List Assignment
  | 0, _ => []
  | n + 1, i =>
    if i < 6 then
      (heldIn loc (c (4 + i)) i).toList ++ heldFrom loc c n (heldNext (c (4 + i)) i)
    else []

theorem le_heldNext (r : Reg) (i : Nat) : i + 1 ≤ heldNext r i := by
  rw [heldNext]
  split_ifs
  · exact Nat.le_succ _
  · exact Nat.le_refl _

theorem heldFrom_of_le (loc : Loc) (c : Config) (n : Nat) (hi : 6 ≤ i) :
    heldFrom loc c n i = [] := by
  cases n with
  | zero => rfl
  | succ n => rw [heldFrom, if_neg (Nat.not_lt.2 hi)]

theorem heldIn_spec (h : heldIn loc r i = some a) :
    (treeProbe r).size ≠ 0#32 ∧ a = ⟨loc, 0x10 + i * 4, barSpace (isIo r.val) (treeProbe r).flags,
      wide r.val, (treeProbe r).size, r.val &&& barAddrMask (isIo r.val)⟩ := by
  rw [heldIn] at h
  split_ifs at h with hsize
  exact ⟨hsize, (Option.some.inj h).symm⟩

/-- Ranges in slots at or behind slot `i`, in their order. -/
inductive Held (loc : Loc) (c : Config) : Nat → List Assignment → Prop
  | nil : Held loc c i []
  | cons (hle : i ≤ j) (hj : j < 6) (ha : heldIn loc (c (4 + j)) j = some a)
      (hrest : Held loc c (heldNext (c (4 + j)) j) l) : Held loc c i (a :: l)

namespace Held

theorem mono (h : Held loc c i l) (hle : i' ≤ i) : Held loc c i' l := by
  cases h with
  | nil => exact .nil
  | cons hle' hj ha hrest => exact .cons (hle.trans hle') hj ha hrest

theorem offset (h : Held loc c i l) (ha : a ∈ l) :
    ∃ j, i ≤ j ∧ j < 6 ∧ a.offset = 0x10 + j * 4 := by
  induction h with
  | nil => exact absurd ha List.not_mem_nil
  | @cons i j b l hle hj hb hrest ih =>
    cases ha with
    | head => exact ⟨j, hle, hj, by rw [(heldIn_spec hb).2]⟩
    | tail _ ha =>
      obtain ⟨j', hle', hj', hoff⟩ := ih ha
      have hnext := le_heldNext (c (4 + j)) j
      exact ⟨j', by omega, hj', hoff⟩

end Held

theorem heldFrom_held (loc : Loc) (c : Config) (n i : Nat) :
    Held loc c i (heldFrom loc c n i) := by
  induction n generalizing i with
  | zero => exact .nil
  | succ n ih =>
    rw [heldFrom]
    split_ifs with hi
    · cases ha : heldIn loc (c (4 + i)) i with
      | none =>
        have hnext := le_heldNext (c (4 + i)) i
        exact (ih _).mono (by omega)
      | some a => exact .cons (Nat.le_refl i) hi ha (ih _)
    · exact .nil

theorem isIo_flags (v : Word) : isIo (v &&& ~~~barAddrMask (isIo v)) = isIo v := by
  have hbit : ∀ io, ~~~barAddrMask io &&& 0x1#32 = 0x1#32 := by
    intro io
    cases io <;> decide
  rw [isIo, BitVec.and_assoc, hbit, ← isIo]

theorem heldIn_physhi (h : heldIn loc r i = some a) :
    physhi loc (barPbit (isIo r.val) (treeProbe r).flags) (barSs (isIo r.val) (wide r.val))
      (0x10 + i * 4) = a.physhi := by
  obtain ⟨-, rfl⟩ := heldIn_spec h
  rw [Assignment.physhi, barPbit, barSs, barSpace]
  cases isIo r.val with
  | true => rfl
  | false => by_cases hp : (treeProbe r).flags &&& 0x8#32 != 0#32 <;> simp [hp]

section Entries

variable {loc : Loc} {c : Config}

theorem dword_slot (hi : i < 6) : dword (0x10 + i * 4) = 4 + i := dword_bar (by omega)

theorem regStep_eq (loc : Loc) (t : Props Config) (hcfg : t.cfg = c) (hi : i < 6)
    (hw : (c (4 + i)).w1c = 0#32) :
    (regStep funcAccess loc i t).1.cfg = c ∧
      (regStep funcAccess loc i t).1.entries =
        t.entries ++ (heldIn loc (c (4 + i)) i).toList.map Assignment.regEntry ∧
      (regStep funcAccess loc i t).1.present = (match heldIn loc (c (4 + i)) i with
        | some _ => t.present ||| 1#8 <<< i
        | none => t.present) ∧
      (regStep funcAccess loc i t).2 = heldNext (c (4 + i)) i := by
  have hd : dword (0x10 + i * 4) = 4 + i := dword_slot hi
  have hprobe : barProbe funcAccess t.cfg (0x10 + i * 4) = (treeProbe (c (4 + i)), c) := by
    rw [hcfg, barProbe_eq c (by rw [hd]; exact hw), hd]
  simp only [regStep, hprobe, treeProbe_is64, heldNext]
  cases ha : heldIn loc (c (4 + i)) i with
  | none =>
    have hsize : (treeProbe (c (4 + i))).size = 0#32 := by
      rw [heldIn] at ha
      split_ifs at ha with hsize
      exact hsize
    rw [if_pos hsize]
    exact ⟨rfl, (List.append_nil _).symm, rfl, trivial⟩
  | some a =>
    obtain ⟨hsize, heq⟩ := heldIn_spec ha
    have hio : ((treeProbe (c (4 + i))).flags &&& 0x1#32 != 0#32) = isIo (c (4 + i)).val := by
      rw [treeProbe_flags hsize]
      exact isIo_flags (c (4 + i)).val
    rw [if_neg hsize, hio, heldIn_physhi ha]
    refine ⟨rfl, ?_, rfl, trivial⟩
    rw [Option.toList_some, List.map_singleton, Assignment.regEntry, heq]

theorem getLsbD_mark (x : BitVec 8) (hi : i < 8) (hj : j < 8) :
    (x ||| 1#8 <<< i).getLsbD j = (x.getLsbD j || decide (j = i)) := by
  rw [BitVec.getLsbD_or, BitVec.getLsbD_shiftLeft, BitVec.getLsbD_one, decide_eq_true hj,
    Bool.true_and]
  by_cases he : j = i
  · subst he
    simp
  · have hne : ¬ (¬ j < i ∧ j - i = 0) := by omega
    simp [he]
    omega

theorem regLoop_eq (loc : Loc) (hw : ∀ i < 6, (c (4 + i)).w1c = 0#32) (n i : Nat) (t : Props Config)
    (hcfg : t.cfg = c) :
    (regLoop funcAccess loc n i t).cfg = c ∧
      (regLoop funcAccess loc n i t).entries =
        t.entries ++ (heldFrom loc c n i).map Assignment.regEntry ∧
      ∀ j < 8, (regLoop funcAccess loc n i t).present.getLsbD j =
        (t.present.getLsbD j || decide (∃ a ∈ heldFrom loc c n i, a.offset = 0x10 + j * 4)) := by
  induction n generalizing i t with
  | zero =>
    refine ⟨hcfg, (List.append_nil _).symm, fun j _ => ?_⟩
    simp [regLoop, heldFrom]
  | succ n ih =>
    rw [regLoop, heldFrom]
    split_ifs with hi
    · obtain ⟨hkeep, hentries, hpresent, hnext⟩ := regStep_eq loc t hcfg hi (hw i hi)
      obtain ⟨hkeep', hentries', hpresent'⟩ :=
        ih (heldNext (c (4 + i)) i) (regStep funcAccess loc i t).1 hkeep
      dsimp only
      rw [hnext]
      refine ⟨hkeep', ?_, fun j hj => ?_⟩
      · rw [hentries', hentries, List.map_append, List.append_assoc]
      · rw [hpresent' j hj, hpresent]
        cases ha : heldIn loc (c (4 + i)) i with
        | none => rfl
        | some a =>
          have hoff : a.offset = 0x10 + i * 4 := by rw [(heldIn_spec ha).2]
          have hhead : a.offset = 0x10 + j * 4 ↔ j = i := by omega
          simp only [Option.toList_some, List.singleton_append, List.mem_cons, exists_eq_or_imp,
            hhead, getLsbD_mark _ (Nat.lt_trans hi (by decide)) hj, Bool.or_assoc]
          rw [Bool.decide_or]
    · refine ⟨hcfg, (List.append_nil _).symm, fun j _ => ?_⟩
      simp

/-- An entry of `assigned-addresses` for a range, with the upper cell that is read back. -/
def assignedOf (c : Config) (a : Assignment) : PciEntry :=
  ⟨a.physhi, if a.is64 then (c (dword a.offset + 1)).val else 0#32, a.base, 0#32, a.size⟩

/-- One round of `set_assigned_addresses` at a slot that `set_reg_prop` has marked. -/
theorem assignedStep_marked (t : Props Config) (hcfg : t.cfg = c) (hi : i < 6)
    (hw : (c (4 + i)).w1c = 0#32) (hbit : t.present.getLsbD i = true)
    (ha : heldIn loc (c (4 + i)) i = some a) :
    assignedStep funcAccess loc i t =
      ({ t with entries := t.entries ++ [assignedOf c a] }, heldNext (c (4 + i)) i) := by
  have hd : dword (0x10 + i * 4) = 4 + i := dword_slot hi
  have hd' : dword (0x10 + i * 4 + 4) = 4 + i + 1 := by
    rw [dword]
    omega
  have hprobe : barProbe funcAccess c (0x10 + i * 4) = (treeProbe (c (4 + i)), c) := by
    rw [barProbe_eq c (by rw [hd]; exact hw), hd]
  obtain ⟨hsize, heq⟩ := heldIn_spec ha
  have hlow : funcAccess.read32 c (0x10 + i * 4) = (c (4 + i)).val := by
    simp only [funcAccess, hd]
  have hhigh : funcAccess.read32 c (0x10 + i * 4 + 4) = (c (4 + i + 1)).val := by
    simp only [funcAccess, hd']
  have hio : ((c (4 + i)).val &&& 0x1#32 != 0#32) = isIo (c (4 + i)).val := rfl
  have hentry : assignedOf c a = ⟨physhi loc (barPbit (isIo (c (4 + i)).val)
      (treeProbe (c (4 + i))).flags) (barSs (isIo (c (4 + i)).val) (wide (c (4 + i)).val))
        (0x10 + i * 4),
      if isIo (c (4 + i)).val then 0#32
        else if wide (c (4 + i)).val then (c (4 + i + 1)).val else 0#32,
      (c (4 + i)).val &&& barAddrMask (isIo (c (4 + i)).val), 0#32,
      (treeProbe (c (4 + i))).size⟩ := by
    rw [assignedOf, heldIn_physhi ha, heq]
    simp only [hd]
    by_cases hwide : wide (c (4 + i)).val = true
    · rw [wide_isIo hwide, if_neg Bool.false_ne_true]
    · simp only [hwide, Bool.false_eq_true, if_false, ite_self]
  subst hcfg
  simp only [assignedStep, hbit, if_true, hprobe, treeProbe_is64, hlow, hhigh, hio, hentry,
    heldNext]
  rfl

theorem assignedStep_unmarked (t : Props Config) (hbit : t.present.getLsbD i = false) :
    assignedStep funcAccess loc i t = (t, i + 1) := by
  rw [assignedStep, hbit, if_neg Bool.false_ne_true]

/-- The BAR loop of `set_assigned_addresses` visits the marked slots. -/
theorem assignedLoop_eq (hw : ∀ i < 6, (c (4 + i)).w1c = 0#32) (hl : Held loc c i l)
    (hn : 6 ≤ i + n) (t : Props Config) (hcfg : t.cfg = c)
    (hbits : ∀ j, i ≤ j → j < 6 →
      t.present.getLsbD j = decide (∃ a ∈ l, a.offset = 0x10 + j * 4)) :
    assignedLoop funcAccess loc n i t =
      { t with entries := t.entries ++ l.map (assignedOf c) } := by
  induction n generalizing i l t with
  | zero =>
    cases hl with
    | nil => rw [assignedLoop, List.map_nil, List.append_nil]
    | cons hle hj ha hrest => omega
  | succ n ih =>
    rw [assignedLoop]
    split_ifs with hi
    · have hbit := hbits i (Nat.le_refl i) hi
      by_cases hmark : t.present.getLsbD i = true
      · rw [hmark, eq_comm, decide_eq_true_eq] at hbit
        obtain ⟨a', ha', hoff'⟩ := hbit
        cases hl with
        | nil => exact absurd ha' List.not_mem_nil
        | @cons _ j a l hle hj ha hrest =>
          have hnext := le_heldNext (c (4 + j)) j
          have hij : i = j := by
            cases ha' with
            | head =>
              rw [(heldIn_spec ha).2] at hoff'
              dsimp only at hoff'
              omega
            | tail _ ha' =>
              obtain ⟨j', hle', -, hoff⟩ := hrest.offset ha'
              omega
          subst hij
          rw [assignedStep_marked t hcfg hi (hw i hi) hmark ha]
          dsimp only
          rw [ih hrest (by omega) { t with entries := t.entries ++ [assignedOf c a] } hcfg ?_]
          · rw [List.map_cons, List.append_assoc]
            rfl
          · intro j hle hj
            rw [hbits j (by omega) hj]
            have hne : a.offset ≠ 0x10 + j * 4 := by
              rw [(heldIn_spec ha).2]
              dsimp only
              omega
            simp only [List.mem_cons, exists_eq_or_imp, hne, false_or]
      · rw [Bool.not_eq_true] at hmark
        rw [hmark, eq_comm, decide_eq_false_iff_not] at hbit
        have hl' : Held loc c (i + 1) l := by
          cases hl with
          | nil => exact .nil
          | @cons _ j a l hle hj ha hrest =>
            refine .cons ?_ hj ha hrest
            obtain rfl | hlt := Nat.eq_or_lt_of_le hle
            · exact absurd ⟨a, List.mem_cons_self, by rw [(heldIn_spec ha).2]⟩ hbit
            · exact hlt
        rw [assignedStep_unmarked t hmark]
        exact ih hl' (by omega) t hcfg fun j hle hj => hbits j (by omega) hj
    · cases hl with
      | nil => rw [List.map_nil, List.append_nil]
      | cons hle hj ha hrest => omega

/-- The range of the expansion ROM, as far as the register tells. -/
def heldRom (loc : Loc) (r : Reg) : Option Assignment :=
  if (treeProbe r).size = 0#32 then none
  else some ⟨loc, 0x30, .mem, false, (treeProbe r).size, r.val &&& romMask⟩

theorem regRom_eq (loc : Loc) (t : Props Config) (hcfg : t.cfg = c) (hw : (c 12).w1c = 0#32) :
    (regRom funcAccess loc t).cfg = c ∧
      (regRom funcAccess loc t).entries =
        t.entries ++ (heldRom loc (c 12)).toList.map Assignment.regEntry ∧
      (regRom funcAccess loc t).present = (if (heldRom loc (c 12)).isSome then
        t.present ||| 0x80#8 else t.present) := by
  have hprobe : barProbe funcAccess t.cfg 0x30 = (treeProbe (c 12), c) := by
    rw [hcfg]
    exact barProbe_eq c hw
  rw [regRom, hprobe]
  dsimp only
  by_cases hsize : (treeProbe (c 12)).size = 0#32
  · rw [if_pos hsize, heldRom, if_pos hsize]
    exact ⟨rfl, (List.append_nil _).symm, rfl⟩
  · rw [if_neg hsize, heldRom, if_neg hsize]
    exact ⟨rfl, rfl, rfl⟩

theorem assignedRom_eq (t : Props Config) (hcfg : t.cfg = c) (hw : (c 12).w1c = 0#32)
    (hbit : t.present &&& 0x80#8 ≠ 0#8 ↔ (heldRom loc (c 12)).isSome) :
    (assignedRom funcAccess loc t).cfg = c ∧ (assignedRom funcAccess loc t).entries =
      t.entries ++ (((heldRom loc (c 12)).toList.filter (·.base ≠ 0#32)).map
        Assignment.assignedEntry) := by
  have hprobe : barProbe funcAccess t.cfg 0x30 = (treeProbe (c 12), c) := by
    rw [hcfg]
    exact barProbe_eq c hw
  have hread : funcAccess.read32 t.cfg 0x30 = (c 12).val := by
    rw [hcfg]
    rfl
  by_cases hsize : (treeProbe (c 12)).size = 0#32
  · have hnone : heldRom loc (c 12) = none := if_pos hsize
    rw [hnone, Option.isSome_none, iff_false_right Bool.false_ne_true, not_not] at hbit
    rw [assignedRom, if_pos hbit, hnone]
    exact ⟨hcfg, (List.append_nil _).symm⟩
  · have hsome : heldRom loc (c 12) =
        some ⟨loc, 0x30, .mem, false, (treeProbe (c 12)).size, (c 12).val &&& romMask⟩ :=
      if_neg hsize
    rw [hsome] at hbit ⊢
    rw [assignedRom, if_neg (hbit.2 rfl), hread, hprobe, ← romMask]
    dsimp only
    by_cases hbase : (c 12).val &&& romMask = 0#32
    · rw [if_neg fun h => h.1 hbase]
      simp [hbase]
    · rw [if_pos ⟨hbase, hsize⟩]
      simp [hbase, Assignment.assignedEntry, Assignment.physhi]

/-- Writing ones to the registers of a function clears nothing. -/
def Restorable (c : Config) : Prop := (∀ i < 6, (c (4 + i)).w1c = 0#32) ∧ (c 12).w1c = 0#32

/-- The ranges that the installer finds in a function. -/
def heldRanges (loc : Loc) (c : Config) : List Assignment :=
  heldFrom loc c 6 0 ++ (heldRom loc (c 12)).toList

theorem setRegProp_eq (loc : Loc) (h : Restorable c) :
    (setRegProp funcAccess loc 0x00#8 c).cfg = c ∧
      (setRegProp funcAccess loc 0x00#8 c).entries =
        ⟨physhi loc 0#32 0#32 0, 0#32, 0#32, 0#32, 0#32⟩ ::
          (heldRanges loc c).map Assignment.regEntry ∧
      (∀ j < 6, (setRegProp funcAccess loc 0x00#8 c).present.getLsbD j =
        decide (∃ a ∈ heldFrom loc c 6 0, a.offset = 0x10 + j * 4)) ∧
      ((setRegProp funcAccess loc 0x00#8 c).present &&& 0x80#8 ≠ 0#8 ↔
        (heldRom loc (c 12)).isSome) := by
  obtain ⟨hkeep, hentries, hpresent⟩ := regLoop_eq loc h.1 6 0
    ⟨c, [⟨physhi loc 0#32 0#32 0, 0#32, 0#32, 0#32, 0#32⟩], 0#8⟩ rfl
  rw [setRegProp, if_pos rfl]
  generalize regLoop funcAccess loc 6 0 _ = t at hkeep hentries hpresent
  obtain ⟨hkeep', hentries', hpresent'⟩ := regRom_eq loc t hkeep h.2
  -- the loop marks the slots 0 to 5 only
  have hrom : t.present &&& 0x80#8 = 0#8 := by
    have hno : t.present.getLsbD 7 = false := by
      rw [hpresent 7 (by decide), BitVec.getLsbD_zero, Bool.false_or, decide_eq_false_iff_not]
      rintro ⟨a, ha, hoff⟩
      obtain ⟨j, -, hj, hoff'⟩ := (heldFrom_held loc c 6 0).offset ha
      omega
    revert hno
    generalize t.present = x
    revert x
    decide
  refine ⟨hkeep', ?_, fun j hj => ?_, ?_⟩
  · rw [hentries', hentries, heldRanges, List.map_append, List.append_assoc]
    rfl
  · have hmark : ∀ x : BitVec 8, (x ||| 0x80#8).getLsbD j = x.getLsbD j := by
      intro x
      rw [show (0x80#8 : BitVec 8) = 1#8 <<< 7 from rfl, getLsbD_mark x (by decide) (by omega),
        decide_eq_false (by omega), Bool.or_false]
    rw [hpresent', apply_ite (fun x => BitVec.getLsbD x j), hmark, ite_self,
      hpresent j (by omega), BitVec.getLsbD_zero, Bool.false_or]
  · rw [hpresent']
    have hset : ∀ x : BitVec 8, (x ||| 0x80#8) &&& 0x80#8 ≠ 0#8 := by decide
    split_ifs with hsome
    · exact iff_of_true (hset _) hsome
    · exact iff_of_false (not_not.2 hrom) hsome

theorem setAssignedAddresses_eq (h : Restorable c)
    (hbits : ∀ j < 6, present.getLsbD j =
      decide (∃ a ∈ heldFrom loc c 6 0, a.offset = 0x10 + j * 4))
    (hrom : present &&& 0x80#8 ≠ 0#8 ↔ (heldRom loc (c 12)).isSome) :
    (setAssignedAddresses funcAccess loc present c).cfg = c ∧
      (setAssignedAddresses funcAccess loc present c).entries =
        (heldFrom loc c 6 0).map (assignedOf c) ++
          ((heldRom loc (c 12)).toList.filter (·.base ≠ 0#32)).map Assignment.assignedEntry := by
  have hloop := assignedLoop_eq h.1 (heldFrom_held loc c 6 0) (Nat.le_add_left 6 0)
    ⟨c, [], present⟩ rfl fun j _ hj => hbits j hj
  rw [setAssignedAddresses, hloop]
  exact assignedRom_eq ⟨c, _, present⟩ rfl h.2 hrom

/-- The node of a type-0 function says what the registers hold, and leaves them as they are. -/
theorem installOneDevice_eq (loc : Loc) (h : Restorable c) (hvendor : vendorId c ≠ 0xFFFF#16)
    (hkind : headerType c &&& 0x7F#8 = 0x00#8) :
    installOneDevice funcAccess loc c =
      (some ⟨⟨physhi loc 0#32 0#32 0, 0#32, 0#32, 0#32, 0#32⟩ ::
          (heldRanges loc c).map Assignment.regEntry,
        (heldFrom loc c 6 0).map (assignedOf c) ++
          ((heldRom loc (c 12)).toList.filter (·.base ≠ 0#32)).map Assignment.assignedEntry⟩,
        c) := by
  obtain ⟨hkeep, hentries, hbits, hrom⟩ := setRegProp_eq loc h
  obtain ⟨hkeep', hentries'⟩ := setAssignedAddresses_eq h hbits hrom
  rw [installOneDevice, ← vendorId, if_neg hvendor, ← headerType]
  dsimp only
  rw [hkind, hkeep, hentries, hkeep', hentries']

end Entries

end Pegasos2.Pci
