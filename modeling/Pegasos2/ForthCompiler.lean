import Pegasos2.ForthSource

namespace Pegasos2.Forth
open Program Prog
set_option autoImplicit true

variable {ε : Type}

/-- The bytes stored from an address on. -/
def putBytes (m : Buf) (p : Nat) : List UInt8 → Buf
  | [] => m
  | b :: bs => putBytes (m.store p b) (p + 1) bs

theorem putBytes_append (m : Buf) (p : Nat) (bs cs : List UInt8) :
    putBytes m p (bs ++ cs) = putBytes (putBytes m p bs) (p + bs.length) cs := by
  induction bs generalizing m p with
  | nil => rfl
  | cons b bs ih =>
    rw [List.cons_append, putBytes, ih, List.length_cons, Nat.add_comm bs.length, ← Nat.add_assoc]
    rfl

theorem putBytes_store (m : Buf) (bs : List UInt8) (h : i < p) :
    (putBytes m p bs).store i v = putBytes (m.store i v) p bs := by
  induction bs generalizing m p with
  | nil => rfl
  | cons b bs ih =>
    rw [putBytes, putBytes, ih _ (Nat.lt_succ_of_lt h)]
    congr 1
    exact Function.update_comm (Nat.ne_of_gt h) _ _ _

theorem putBytes_patch (m : Buf) (p : Nat) (xs ys : List UInt8) (a b c d : UInt8) :
    ((putBytes m p (xs ++ [a, b] ++ ys)).store (p + xs.length) c).store (p + xs.length + 1) d =
      putBytes m p (xs ++ [c, d] ++ ys) := by
  have hsplit : ∀ a b, putBytes m p (xs ++ [a, b] ++ ys) =
      putBytes (((putBytes m p xs).store (p + xs.length) a).store (p + xs.length + 1) b)
        (p + xs.length + 2) ys := by
    intro a b
    rw [putBytes_append, putBytes_append, List.length_append, ← Nat.add_assoc]
    rfl
  rw [hsplit, hsplit, putBytes_store _ _ (by omega), putBytes_store _ _ (by omega)]
  simp only [Buf.store]
  rw [Function.update_comm (Nat.succ_ne_self _), Function.update_idem, Function.update_idem]

/-- The bytes `bs` have been compiled, and the data stack is `st`. -/
def Environ.grow (e : Environ ε) (bs : List UInt8) (st : List Cell) : Environ ε :=
  { e with mem := putBytes e.mem e.fbrk bs, fbrk := e.fbrk + bs.length, stack := st }

theorem Environ.emit_eq (e : Environ ε) (bs : List UInt8) : e.emit bs = e.grow bs e.stack := by
  induction bs generalizing e with
  | nil => rfl
  | cons b bs ih =>
    rw [emit, ih, grow, grow, List.length_cons, Nat.add_comm bs.length, ← Nat.add_assoc]
    rfl

/-- The cell of the stack that holds the place behind `n` compiled bytes. -/
def Environ.place (e : Environ ε) (n : Nat) : Cell := .ofNat 32 (e.fbrk + n)

section Grow
variable {e : Environ ε} {bs cs : List UInt8} {st : List Cell}

theorem grow_nil : e.grow [] e.stack = e := rfl

theorem grow_emit : (e.grow bs st).emit cs = e.grow (bs ++ cs) st := by
  rw [Environ.emit_eq]
  simp only [Environ.grow, putBytes_append, List.length_append, Nat.add_assoc]

theorem grow_patch {o : Int} (hp : ptr = e.fbrk + xs.length) (hpos : 0 < e.fbrk)
    (ho : -32768 ≤ o ∧ o ≤ 32767) (hlen : os.length = 2) :
    patchOffset ptr o (e.grow (xs ++ os ++ ys) st) = e.grow (xs ++ offsetBytes o ++ ys) st := by
  obtain ⟨a, b, rfl⟩ := List.length_eq_two.1 hlen
  rw [patchOffset, if_neg (by omega), if_neg (by omega), hp]
  simp only [Environ.grow, List.length_append, offsetBytes_length, List.length_cons,
    List.length_nil]
  congr 1
  exact putBytes_patch _ _ _ _ _ _ _ _

theorem place_toNat (h : e.fbrk + n < 2 ^ 32) : (e.place n).toNat = e.fbrk + n := by
  rw [Environ.place, BitVec.toNat_ofNat, Nat.mod_eq_of_lt h]

theorem pushp_grow (h : bs.length = n) :
    (e.grow bs st).pushp (e.grow bs st).fbrk = e.grow bs (e.place n :: st) :=
  h ▸ rfl

end Grow

/-- The codes that the control words and the loop words are compiled to. -/
def controlCodes : List Nat :=
  [0x00, 0x10, 0x13, 0x15, 0x16, 0x19, 0x1A, 0x1B, 0x1C, 0x33, 0x89, 0xB2, 0xC5, 0xC6, 0x701,
    0x704, 0x714, 0x717, 0x718]

/-- The environment of a definition: the codes that are compiled stand for themselves, and the
dictionary memory can be addressed by a cell. -/
structure Ready (known : Nat → Prop) (e : Environ ε) : Prop where
  compiling : e.iscompiling = true
  based : 0 < e.fbrk
  addressed : e.fend ≤ 2 ^ 32
  mapped : ∀ x : Nat, x ∈ controlCodes ∨ known x → fcodeXtok e x = x

section Commands
variable {known : Nat → Prop} {e : Environ ε} {bs xs ys : List UInt8} {st : List Cell} {c : Cell}

theorem compileFcode_grow (hR : Ready known e) (x : Nat) (cs : List UInt8)
    (hx : x ∈ controlCodes ∨ known x) (hbytes : xtokBytes x = cs)
    (hroom : e.fbrk + (bs.length + cs.length) < e.fend) :
    compileFcode x (e.grow bs st) = (.noError, e.grow (bs ++ cs) st) := by
  have hcode : fcodeXtok (e.grow bs st) x = x := hR.mapped x hx
  have hpos := xtokBytes_length_pos x
  rw [compileFcode_eq, hcode, Int.toNat_natCast, hbytes, compileBytes_emit, grow_emit]
  · show e.fbrk + bs.length + cs.length < e.fend
    omega
  · rw [hcode]
    omega
  · show e.fbrk + bs.length + 1 < e.fend
    rw [hbytes] at hpos
    omega

theorem compileOffset_grow {o : Int} (ho : -32768 ≤ o ∧ o ≤ 32767)
    (hroom : e.fbrk + (bs.length + 2) < e.fend) :
    compileOffset o (e.grow bs st) = (.noError, e.grow (bs ++ offsetBytes o) st) := by
  rw [compileOffset, if_neg (by omega), compileBytes_emit, grow_emit]
  show e.fbrk + bs.length + 2 < e.fend
  omega

theorem ifcksp_ok {lo hi : Nat} {x : Environ ε} (hlo : lo ≤ x.stack.length)
    (hhi : x.stack.length + hi < stackSize) (rest : Tail × Environ ε) :
    ifcksp lo hi x rest = rest :=
  (if_neg (not_lt.2 hlo)).trans (if_neg fun h => not_le.2 hhi h.2)

theorem ifcksp_low {lo : Nat} {x : Environ ε} (hlo : lo ≤ x.stack.length)
    (rest : Tail × Environ ε) : ifcksp lo 0 x rest = rest :=
  (if_neg (not_lt.2 hlo)).trans (if_neg fun h => h.1 rfl)

theorem beginTempCompile_grow (hR : Ready known e) :
    beginTempCompile (e.grow bs st) = e.grow bs st :=
  if_pos hR.compiling

theorem ready_if (hR : Ready known e) (rest : Tail × Environ ε) (x : Tail × Environ ε) :
    (if !(e.grow bs st).iscompiling then x else rest) = rest := by
  rw [show (e.grow bs st).iscompiling = true from hR.compiling]
  rfl

theorem compileBranch_forward (hR : Ready known e) (hst : st.length + 2 < stackSize)
    (hroom : e.fbrk + (bs.length + 4) < e.fend) : compileBranch 0x714 1 (e.grow bs st) =
      (.ret .noError, e.grow (bs ++ [0x07, 0x14] ++ offsetBytes 0)
        (0x714 :: e.place (bs ++ [0x07, 0x14]).length :: st)) := by
  have hcode : compileFcode 0x714 (e.grow bs st) = _ :=
    compileFcode_grow hR 0x714 [0x07, 0x14] (.inl (by decide)) rfl
      (by rw [List.length_cons, List.length_singleton]; omega)
  rw [compileBranch, ready_if hR, hcode]
  show ifcksp 0 2 _ _ = _
  rw [ifcksp_ok (Nat.zero_le _) hst, pushp_grow rfl]
  show returned (compileOffset 0
    (e.grow _ (0x714 :: e.place (bs ++ [0x07, 0x14]).length :: st))) = _
  rw [compileOffset_grow (by decide) (by rw [List.length_append]; exact hroom)]
  rfl

theorem compileBranch_back (hR : Ready known e) (hx : x ∈ controlCodes) (hbytes : xtokBytes x = cs)
    (hk : k ≤ bs.length) (hfar : bs.length + cs.length ≤ k + 0x8000)
    (hroom : e.fbrk + (bs.length + cs.length + 2) < e.fend) :
    compileBranch x (-1) (e.grow bs (0xB1 :: e.place k :: st)) =
      (.resolve, e.grow (bs ++ cs ++ offsetBytes ((k : Int) - (bs.length + cs.length))) st) := by
  have haddr := hR.addressed
  rw [compileBranch, ready_if hR, compileFcode_grow hR x cs (.inl hx) hbytes (by omega)]
  show compileBack (e.grow (bs ++ cs) (0xB1 :: e.place k :: st)) = _
  rw [compileBack, ifcksp_low (Nat.le_add_left 2 _)]
  show andThen (compileOffset (((e.place k).toNat : Int) - (e.fbrk + (bs ++ cs).length : Nat))
    (e.grow (bs ++ cs) st)) _ = _
  have hoff : (((e.place k).toNat : Int) - (e.fbrk + (bs ++ cs).length : Nat)) =
      (k : Int) - (bs.length + cs.length) := by
    rw [place_toNat (by omega), List.length_append]
    omega
  rw [hoff, compileOffset_grow (by omega) (by rw [List.length_append]; exact hroom)]
  rfl

/-- The last three bytes are those of a `bbranch` that is still to be patched. -/
def EndsInBbranch (bs : List UInt8) : Prop := bs.reverse.take 3 = [0, 0, 0x13]

instance : DecidablePred EndsInBbranch := fun _ => inferInstanceAs (Decidable (_ = _))

theorem atBbranch_grow (h : 3 ≤ bs.length) : atBbranch (e.grow bs st) ↔ EndsInBbranch bs := by
  obtain ⟨a, b, c, habc⟩ : ∃ a b c, bs.drop (bs.length - 3) = [a, b, c] := by
    rw [← List.length_eq_three, List.length_drop]
    omega
  obtain ⟨ws, rfl⟩ : ∃ ws, bs = ws ++ [a, b, c] :=
    ⟨bs.take (bs.length - 3), by rw [← habc, List.take_append_drop]⟩
  have hmem : (e.grow (ws ++ [a, b, c]) st).mem =
      (((putBytes e.mem e.fbrk ws).store (e.fbrk + ws.length) a).store (e.fbrk + ws.length + 1)
        b).store (e.fbrk + ws.length + 2) c := by
    show putBytes e.mem e.fbrk (ws ++ [a, b, c]) = _
    rw [putBytes_append]
    rfl
  have hbrk : (e.grow (ws ++ [a, b, c]) st).fbrk = e.fbrk + ws.length + 3 := by
    show e.fbrk + (ws ++ [a, b, c]).length = _
    rw [List.length_append]
    rfl
  have hlast : EndsInBbranch (ws ++ [a, b, c]) ↔ a = 0x13 ∧ b = 0 ∧ c = 0 := by
    rw [EndsInBbranch, List.reverse_append]
    show [c, b, a] = [0, 0, 0x13] ↔ _
    simp only [List.cons.injEq, and_true]
    exact ⟨fun h => ⟨h.2.2, h.2.1, h.1⟩, fun h => ⟨h.2.2, h.2.1, h.1⟩⟩
  generalize e.fbrk + ws.length = p at hmem hbrk
  have hfirst : (e.grow (ws ++ [a, b, c]) st).mem p = a := by
    rw [hmem, Buf.store_ne _ _ (show p ≠ p + 2 by omega),
      Buf.store_ne _ _ (show p ≠ p + 1 by omega), Buf.store_same]
  have hsecond : (e.grow (ws ++ [a, b, c]) st).mem (p + 1) = b := by
    rw [hmem, Buf.store_ne _ _ (show p + 1 ≠ p + 2 by omega), Buf.store_same]
  have hthird : (e.grow (ws ++ [a, b, c]) st).mem (p + 2) = c := by
    rw [hmem, Buf.store_same]
  rw [hlast, atBbranch, hbrk, show p + 3 - 3 = p from rfl, show p + 3 - 2 = p + 1 from rfl,
    show p + 3 - 1 = p + 2 from rfl, hfirst, hsecond, hthird]

/-- Bytes that no part of an unpatched `bbranch` can be have no say in what follows them. -/
theorem endsInBbranch_append (hx : x ≠ 0x13 ∨ y ≠ 0 ∨ z ≠ 0) (hy : y ≠ 0x13 ∨ z ≠ 0)
    (hz : z ≠ 0x13) : EndsInBbranch (xs ++ [x, y, z] ++ ys) ↔ EndsInBbranch ys := by
  rw [EndsInBbranch, EndsInBbranch, List.reverse_append, List.reverse_append]
  match ys.reverse with
  | [] =>
    show [z, y, x] = _ ↔ [] = _
    simp only [List.cons.injEq, and_true, reduceCtorEq, iff_false]
    rintro ⟨rfl, rfl, rfl⟩
    obtain h | h | h := hx <;> exact h rfl
  | [b] =>
    show [b, z, y] = _ ↔ [b] = _
    simp only [List.cons.injEq, and_true, reduceCtorEq, and_false, iff_false]
    rintro ⟨-, rfl, rfl⟩
    obtain h | h := hy <;> exact h rfl
  | [b, c] =>
    show [b, c, z] = _ ↔ [b, c] = _
    simp only [List.cons.injEq, and_true, reduceCtorEq, and_false, iff_false]
    rintro ⟨-, -, rfl⟩
    exact hz rfl
  | b :: c :: d :: _ => exact Iff.rfl

theorem length_gap : (xs ++ offsetBytes o ++ ys).length = xs.length + (ys.length + 2) := by
  rw [List.length_append, List.length_append, offsetBytes_length, Nat.add_assoc, Nat.add_comm 2]

theorem fbrk_sub_place (h : e.fbrk + xs.length < 2 ^ 32) :
    ((e.grow (xs ++ offsetBytes 0 ++ ys) st).fbrk : Int) - (e.place xs.length).toNat =
      (ys.length + 2 : Nat) := by
  show ((e.fbrk + (xs ++ offsetBytes 0 ++ ys).length : Nat) : Int) - _ = _
  rw [place_toNat h, length_gap]
  omega

/-- The branch whose offset stands behind `xs` is patched to come to the end. -/
theorem patch_end (hR : Ready known e) (xs ys : List UInt8) (st : List Cell)
    (hshort : ys.length + 2 < 0x8000)
    (hroom : e.fbrk + (xs.length + (ys.length + 2)) < e.fend) :
    patchOffset (e.place xs.length).toNat
        (((e.grow (xs ++ offsetBytes 0 ++ ys) st).fbrk : Int) - (e.place xs.length).toNat)
        (e.grow (xs ++ offsetBytes 0 ++ ys) st) =
      e.grow (xs ++ offsetBytes (ys.length + 2 : Nat) ++ ys) st := by
  have haddr := hR.addressed
  rw [fbrk_sub_place (by omega)]
  exact grow_patch (place_toNat (by omega)) hR.based (by omega) rfl

theorem compileFcode_gap (hR : Ready known e) (x : Nat) (cs : List UInt8) (hx : x ∈ controlCodes)
    (hbytes : xtokBytes x = cs)
    (hroom : e.fbrk + (xs.length + (ys.length + 2) + cs.length) < e.fend) :
    compileFcode x (e.grow (xs ++ offsetBytes 0 ++ ys) st) =
      (.noError, e.grow (xs ++ offsetBytes 0 ++ (ys ++ cs)) st) := by
  rw [compileFcode_grow hR x cs (.inl hx) hbytes (by rwa [length_gap]), List.append_assoc _ ys]

theorem compileOffset_gap (e : Environ ε) (xs ys : List UInt8) (st : List Cell) (o : Int)
    (ho : -32768 ≤ o ∧ o ≤ 32767)
    (hroom : e.fbrk + (xs.length + (ys.length + 2) + 2) < e.fend) :
    compileOffset o (e.grow (xs ++ offsetBytes 0 ++ ys) st) =
      (.noError, e.grow (xs ++ offsetBytes 0 ++ (ys ++ offsetBytes o)) st) := by
  rw [compileOffset_grow ho (by rwa [length_gap]), List.append_assoc _ ys]

theorem resolveBranch_grow (hR : Ready known e) (hshort : ys.length + 3 < 0x8000)
    (hroom : e.fbrk + (xs.length + (ys.length + 2) + 1) < e.fend)
    (hlen : 3 ≤ xs.length + (ys.length + 2))
    (hplain : ¬ EndsInBbranch (xs ++ offsetBytes 0 ++ ys)) :
    resolveBranch (e.grow (xs ++ offsetBytes 0 ++ ys) (c :: e.place xs.length :: st)) =
      (.resolve, e.grow (xs ++ offsetBytes (ys.length + 3 : Nat) ++ (ys ++ [0xB2])) st) := by
  have hat : ¬ atBbranch (e.grow (xs ++ offsetBytes 0 ++ ys) st) := by
    rwa [atBbranch_grow (by rwa [length_gap])]
  have hcode : compileFcode 0xB2 (e.grow (xs ++ offsetBytes 0 ++ ys) st) = _ :=
    compileFcode_gap hR 0xB2 [0xB2] (by decide) rfl hroom
  rw [resolveBranch, ready_if hR, ifcksp_low (Nat.le_add_left 2 _)]
  show (if atBbranch (e.grow _ st) then _ else
    andThen (compileFcode 0xB2 (e.grow _ st)) fun e' => (.resolve, patchOffset
      (e.place xs.length).toNat ((e'.fbrk : Int) - (e.place xs.length).toNat) e')) = _
  rw [if_neg hat, hcode]
  show (Tail.resolve, patchOffset _ _ _) = _
  rw [patch_end hR xs (ys ++ [0xB2]) st (by rw [List.length_append, List.length_singleton]; omega)
    (by rw [List.length_append, List.length_singleton]; omega), List.length_append]
  rfl

/-- A branch is taken for that of an `else`, and the branch of its `if` is missed. -/
theorem resolveBranch_misread (hR : Ready known e) (hlen : 3 ≤ bs.length)
    (hends : EndsInBbranch bs) (hst : st.length < 2) :
    resolveBranch (e.grow bs (c :: d :: st)) = (.ret .eStackUnderflow, e.grow bs st) := by
  rw [resolveBranch, ready_if hR, ifcksp_low (Nat.le_add_left 2 _)]
  show (if atBbranch (e.grow bs st) then ifcksp 2 2 (e.grow bs st) _ else _) = _
  rw [if_pos ((atBbranch_grow hlen).2 hends)]
  exact if_pos hst

theorem pushp_gap (h : xs.length + (ys.length + 2) = n) :
    (e.grow (xs ++ offsetBytes 0 ++ ys) st).pushp (e.grow (xs ++ offsetBytes 0 ++ ys) st).fbrk =
      e.grow (xs ++ offsetBytes 0 ++ ys) (e.place n :: st) :=
  pushp_grow (length_gap.trans h)

/-- `else` patches the branch of `if` and leaves one of its own. -/
theorem fElse_grow (hR : Ready known e) (hshort : ys.length + 6 < 0x8000)
    (hst : st.length + 3 < stackSize) (hroom : e.fbrk + (xs.length + (ys.length + 2) + 4) < e.fend)
    (hpre : xs ++ offsetBytes (ys.length + 6 : Nat) ++ (ys ++ [0x13]) = zs) :
    fElse (e.grow (xs ++ offsetBytes 0 ++ ys) (c :: e.place xs.length :: st)) =
      (.ret .noError, e.grow (zs ++ offsetBytes 0 ++ [0xB2]) (c :: e.place zs.length :: st)) := by
  have hlen : zs.length = xs.length + ((ys ++ [0x13]).length + 2) := hpre ▸ length_gap
  have hcode : compileFcode 0x13 (e.grow (xs ++ offsetBytes 0 ++ ys) st) = _ :=
    compileFcode_gap hR 0x13 [0x13] (by decide) rfl
      (by rw [List.length_singleton]; omega)
  have hoffset := compileOffset_gap e xs (ys ++ [0x13]) (c :: e.place zs.length :: st) 0 (by decide)
    (by rw [List.length_append, List.length_singleton]; omega)
  have hresolve : compileFcode 0xB2 (e.grow (xs ++ offsetBytes 0 ++ (ys ++ [0x13] ++ offsetBytes 0))
      (c :: e.place zs.length :: st)) = _ :=
    compileFcode_gap hR 0xB2 [0xB2] (by decide) rfl
      (by simp only [List.length_append, List.length_singleton, offsetBytes_length]; omega)
  have hpatch := patch_end hR xs (ys ++ [0x13] ++ offsetBytes 0 ++ [0xB2])
    (c :: e.place zs.length :: st)
    (by simp only [List.length_append, List.length_singleton, offsetBytes_length]; omega)
    (by simp only [List.length_append, List.length_singleton, offsetBytes_length]; omega)
  rw [fElse, ready_if hR, ifcksp_ok (Nat.le_add_left 1 _) hst]
  show (let x := compileOffset 0 ((pushingBrk (compileFcode 0x13 (e.grow _ st))).2.push c)
    (Tail.ret x.1, patchOffset (e.place xs.length).toNat
      (((compileFcode 0xB2 x.2).2.fbrk : Int) - (e.place xs.length).toNat)
      (compileFcode 0xB2 x.2).2)) = _
  rw [hcode, pushingBrk, pushp_gap hlen.symm]
  show (let x := compileOffset 0 (e.grow _ (c :: e.place zs.length :: st))
    (Tail.ret x.1, patchOffset (e.place xs.length).toNat
      (((compileFcode 0xB2 x.2).2.fbrk : Int) - (e.place xs.length).toNat)
      (compileFcode 0xB2 x.2).2)) = _
  rw [hoffset]
  dsimp only
  rw [hresolve]
  dsimp only
  rw [hpatch, ← hpre]
  simp only [List.length_append, List.length_singleton, offsetBytes_length, List.append_assoc]

theorem fBltmark_grow (hR : Ready known e) (hst : st.length + 2 < stackSize)
    (hroom : e.fbrk + (bs.length + 2) < e.fend) :
    fBltmark (e.grow bs st) =
      (.ret .noError, e.grow (bs ++ [0x07, 0x01]) (0xB1 :: e.place (bs.length + 2) :: st)) := by
  have hcode : compileFcode 0x701 (e.grow bs st) = _ :=
    compileFcode_grow hR 0x701 [0x07, 0x01] (.inl (by decide)) rfl hroom
  rw [fBltmark, ifcksp_ok (Nat.zero_le _) hst, beginTempCompile_grow hR, hcode]
  show (Tail.ret .noError, ((e.grow _ st).pushp (e.grow _ st).fbrk).push 0xB1) = _
  rw [pushp_grow (n := bs.length + 2) List.length_append]
  rfl

theorem fRepeat_grow (hR : Ready known e) (hshort : ys.length + 6 < 0x8000)
    (hroom : e.fbrk + (xs.length + (ys.length + 2) + 4) < e.fend) (hk : k ≤ xs.length)
    (hfar : xs.length + (ys.length + 3) ≤ k + 0x8000)
    (hoff : (k : Int) - (xs.length + (ys.length + 3) : Nat) = o) :
    fRepeat (e.grow (xs ++ offsetBytes 0 ++ ys)
        (c :: e.place xs.length :: 0xB1 :: e.place k :: st)) =
      (.resolve, e.grow (xs ++ offsetBytes (ys.length + 6 : Nat) ++
        (ys ++ [0x13] ++ offsetBytes o ++ [0xB2])) st) := by
  have haddr := hR.addressed
  have hcode : compileFcode 0x13 (e.grow (xs ++ offsetBytes 0 ++ ys) st) = _ :=
    compileFcode_gap hR 0x13 [0x13] (by decide) rfl
      (by rw [List.length_singleton]; omega)
  have hoffset := compileOffset_gap e xs (ys ++ [0x13]) st o
    (by omega) (by rw [List.length_append, List.length_singleton]; omega)
  have hresolve : compileFcode 0xB2
      (e.grow (xs ++ offsetBytes 0 ++ (ys ++ [0x13] ++ offsetBytes o)) st) = _ :=
    compileFcode_gap hR 0xB2 [0xB2] (by decide) rfl
      (by simp only [List.length_append, List.length_singleton, offsetBytes_length]; omega)
  have hpatch := patch_end hR xs (ys ++ [0x13] ++ offsetBytes o ++ [0xB2]) st
    (by simp only [List.length_append, List.length_singleton, offsetBytes_length]; omega)
    (by simp only [List.length_append, List.length_singleton, offsetBytes_length]; omega)
  have hback : (((e.place k).toNat : Int) -
      (e.grow (xs ++ offsetBytes 0 ++ (ys ++ [0x13])) st).fbrk) = o := by
    show _ - ((e.fbrk + (xs ++ offsetBytes 0 ++ (ys ++ [0x13])).length : Nat) : Int) = o
    rw [place_toNat (by omega), length_gap, List.length_append, List.length_singleton, ← hoff]
    omega
  rw [fRepeat, ifcksp_low (Nat.le_add_left 1 _)]
  show andThen (compileOffset (((e.place k).toNat : Int) -
      (compileFcode 0x13 (e.grow _ st)).2.fbrk) (compileFcode 0x13 (e.grow _ st)).2) (fun e₁ =>
    (Tail.resolve, patchOffset (e.place xs.length).toNat
      (((compileFcode 0xB2 e₁).2.fbrk : Int) - (e.place xs.length).toNat)
      (compileFcode 0xB2 e₁).2)) = _
  rw [hcode]
  dsimp only
  rw [hback, hoffset]
  dsimp only [andThen]
  rw [hresolve]
  dsimp only
  rw [hpatch]
  simp only [List.length_append, List.length_singleton, offsetBytes_length]

theorem compileDo_grow (hR : Ready known e) (x : Nat) (hx : x ∈ controlCodes)
    (hbytes : xtokBytes x = cs) (hst : st.length + 2 < stackSize)
    (hroom : e.fbrk + (bs.length + cs.length + 2) < e.fend) :
    compileDo x (e.grow bs st) =
      (.ret .noError, e.grow (bs ++ cs ++ offsetBytes 0) (e.place (bs ++ cs).length :: st)) := by
  have hcode : compileFcode x (e.grow bs st) = _ :=
    compileFcode_grow hR x cs (.inl hx) hbytes (by omega)
  rw [compileDo, ifcksp_ok (Nat.zero_le _) hst, beginTempCompile_grow hR, hcode, pushingBrk,
    pushp_grow rfl, andThen,
    compileOffset_grow (by decide) (by rw [List.length_append]; exact hroom)]
  rfl

theorem compileLoop_grow (hR : Ready known e) (x : Nat) (hx : x ∈ controlCodes)
    (hbytes : xtokBytes x = [b]) (hshort : ys.length + 5 < 0x8000)
    (hroom : e.fbrk + (xs.length + (ys.length + 2) + 3) < e.fend) :
    compileLoop x (e.grow (xs ++ offsetBytes 0 ++ ys) (e.place xs.length :: st)) =
      (.resolve, e.grow (xs ++ offsetBytes (ys.length + 5 : Nat) ++
        (ys ++ [b] ++ offsetBytes (-(ys.length + 1)))) st) := by
  have haddr := hR.addressed
  have hcode : compileFcode x
      (e.grow (xs ++ offsetBytes 0 ++ ys) (e.place xs.length :: st)) = _ :=
    compileFcode_gap hR x [b] hx hbytes (by rw [List.length_singleton]; omega)
  have hsub : ((e.grow (xs ++ offsetBytes 0 ++ (ys ++ [b])) st).fbrk : Int) -
      (e.place xs.length).toNat = ys.length + 3 := by
    rw [fbrk_sub_place (by omega), List.length_append, List.length_singleton]
    omega
  have hoffset := compileOffset_gap e xs (ys ++ [b]) st (-((ys.length : Int) + 3) + 2) (by omega)
    (by rw [List.length_append, List.length_singleton]; omega)
  rw [compileLoop, ready_if hR, ifcksp_low (Nat.le_add_left 1 _), hcode]
  show andThen (compileOffset (-(((e.grow _ st).fbrk : Int) - (e.place xs.length).toNat) + 2)
    (e.grow _ st)) (fun e₁ => (Tail.resolve, patchOffset (e.place xs.length).toNat
      (((e.grow _ st).fbrk : Int) - (e.place xs.length).toNat + 2) e₁)) = _
  rw [hsub, hoffset]
  show (Tail.resolve, patchOffset _ _ (e.grow (_ ++ _ ++ _) st)) = _
  rw [grow_patch (place_toNat (by omega)) hR.based (by omega) rfl,
    show -((ys.length : Int) + 3) + 2 = -(ys.length + 1) by omega,
    show (ys.length : Int) + 3 + 2 = (ys.length + 5 : Nat) by omega]

theorem fBcase_grow (hR : Ready known e) (hst : st.length + 2 < stackSize)
    (hroom : e.fbrk + (bs.length + 2) < e.fend) :
    fBcase (e.grow bs st) = (.ret .noError, e.grow (bs ++ [0x07, 0x04]) (0 :: st)) := by
  have hcode : compileFcode 0x704 (e.grow bs st) = _ :=
    compileFcode_grow hR 0x704 [0x07, 0x04] (.inl (by decide)) rfl hroom
  rw [fBcase, ifcksp_ok (Nat.zero_le _) hst, beginTempCompile_grow hR, hcode]
  rfl

theorem fOf_grow (hR : Ready known e) (hst : st.length + 1 < stackSize)
    (hroom : e.fbrk + (bs.length + 3) < e.fend) :
    fOf (e.grow bs st) = (.ret .noError, e.grow (bs ++ [0x1C] ++ offsetBytes 0)
      (e.place (bs ++ [0x1C]).length :: st)) := by
  have hcode : compileFcode 0x1C (e.grow bs st) = _ :=
    compileFcode_grow hR 0x1C [0x1C] (.inl (by decide)) rfl
      (by rw [List.length_singleton]; omega)
  rw [fOf, ready_if hR, compileOf, ready_if hR, ifcksp_ok (Nat.zero_le _) hst]
  rw [hcode, pushingBrk, pushp_grow rfl, andThen, compileOffset_grow (by decide) (by
    rw [List.length_append, List.length_singleton]
    omega)]
  rfl

/-- `endof` patches its `of` and leaves a branch to the end of the `case`. -/
theorem fEndof_grow (hR : Ready known e) (hshort : ys.length + 5 < 0x8000)
    (hlow : 1 ≤ st.length) (hst : st.length + 2 < stackSize)
    (hroom : e.fbrk + (xs.length + (ys.length + 2) + 3) < e.fend)
    (hpre : xs ++ offsetBytes (ys.length + 5 : Nat) ++ (ys ++ [0xC6]) = zs) :
    fEndof (e.grow (xs ++ offsetBytes 0 ++ ys) (e.place xs.length :: st)) =
      (.ret .noError, e.grow (zs ++ offsetBytes 0) (e.place zs.length :: st)) := by
  have haddr := hR.addressed
  have hlen : zs.length = xs.length + ((ys ++ [0xC6]).length + 2) := hpre ▸ length_gap
  have hcode : compileFcode 0xC6 (e.grow (xs ++ offsetBytes 0 ++ ys) st) = _ :=
    compileFcode_gap hR 0xC6 [0xC6] (by decide) rfl
      (by rw [List.length_singleton]; omega)
  have hoffset := compileOffset_gap e xs (ys ++ [0xC6]) (e.place zs.length :: st) 0 (by decide)
    (by rw [List.length_append, List.length_singleton]; omega)
  have hpatch := patch_end hR xs (ys ++ [0xC6] ++ offsetBytes 0) (e.place zs.length :: st)
    (by simp only [List.length_append, List.length_singleton, offsetBytes_length]; omega)
    (by simp only [List.length_append, List.length_singleton, offsetBytes_length]; omega)
  rw [fEndof, ready_if hR, compileEndof, ready_if hR, ifcksp_ok (Nat.succ_le_succ hlow) hst]
  show andThen (pushingBrk (compileFcode 0xC6 (e.grow _ st))) _ = _
  rw [hcode, pushingBrk, pushp_gap hlen.symm, andThen, hoffset]
  show (Tail.ret .noError, patchOffset (e.place xs.length).toNat
    (((e.grow _ _).fbrk : Int) - (e.place xs.length).toNat) (e.grow _ _)) = _
  rw [hpatch, ← hpre]
  simp only [List.length_append, List.length_singleton, offsetBytes_length, List.append_assoc]

/-- The branches whose offsets stand at the places `ks` are patched to come to `fin`. -/
def patchAll (fin : Nat) : List Nat → List UInt8 → List UInt8
  | [], bs => bs
  | k :: ks, bs => patchAll fin ks (bs.take k ++ offsetBytes ((fin : Int) - k) ++ bs.drop (k + 2))

theorem patchAll_append (fin : Nat) (ks : List Nat) (bs cs : List UInt8)
    (h : ∀ k ∈ ks, k + 2 ≤ bs.length) : patchAll fin ks (bs ++ cs) = patchAll fin ks bs ++ cs := by
  induction ks generalizing bs with
  | nil => rfl
  | cons k ks ih =>
    have hk := h k List.mem_cons_self
    rw [patchAll, patchAll, List.take_append_of_le_length (by omega),
      List.drop_append_of_le_length hk, ← List.append_assoc]
    refine ih _ fun j hj => ?_
    have hj := h j (List.mem_cons_of_mem k hj)
    simp only [List.length_append, List.length_take, offsetBytes_length, List.length_drop]
    omega

theorem patchEnds_grow (hR : Ready known e) (fin : Nat) (ks : List Nat) (bs : List UInt8)
    (st st' : List Cell) (h : ∀ k ∈ ks, k + 2 ≤ bs.length ∧ fin < k + 0x8000)
    (hfin : bs.length ≤ fin) (hroom : e.fbrk + fin < e.fend) :
    patchEnds (e.fbrk + fin) (ks.map e.place ++ 0 :: st) (e.grow bs st') =
      e.grow (patchAll fin ks bs) st := by
  induction ks generalizing bs with
  | nil => rfl
  | cons k ks ih =>
    obtain ⟨hk, hnear⟩ := h k List.mem_cons_self
    have haddr := hR.addressed
    have hbased := hR.based
    have hplace : (e.place k).toNat = e.fbrk + k := place_toNat (by omega)
    have hbs : bs = bs.take k ++ (bs.drop k).take 2 ++ bs.drop (k + 2) := by
      rw [List.append_assoc, ← List.drop_drop, List.take_append_drop, List.take_append_drop]
    have hpatch : patchOffset (e.place k).toNat ((e.fbrk + fin : Nat) - (e.place k).toNat : Int)
        (e.grow bs st') = e.grow (bs.take k ++ offsetBytes ((fin : Int) - k) ++ bs.drop (k + 2))
          st' := by
      rw [hplace, show ((e.fbrk + fin : Nat) - (e.fbrk + k : Nat) : Int) = (fin : Int) - k by omega]
      conv_lhs => rw [hbs]
      refine grow_patch ?_ hbased (by omega) ?_
      · rw [List.length_take, Nat.min_eq_left (by omega)]
      · rw [List.length_take, List.length_drop, Nat.min_eq_left (by omega)]
    have hlen : (bs.take k ++ offsetBytes ((fin : Int) - k) ++ bs.drop (k + 2)).length =
        bs.length := by
      simp only [List.length_append, List.length_take, offsetBytes_length, List.length_drop]
      omega
    rw [List.map_cons, List.cons_append, patchEnds, if_neg (by omega), hpatch]
    refine ih _ (fun j hj => ?_) (hlen ▸ hfin)
    rw [hlen]
    exact h j (List.mem_cons_of_mem k hj)

theorem fEndcase_grow (hR : Ready known e) (ks : List Nat)
    (h : ∀ k ∈ ks, k + 2 ≤ bs.length ∧ bs.length + 1 < k + 0x8000)
    (hroom : e.fbrk + (bs.length + 1) < e.fend) :
    fEndcase (e.grow bs (ks.map e.place ++ 0 :: st)) =
      (.resolve, e.grow (patchAll (bs.length + 1) ks bs ++ [0xC5]) st) := by
  have hcode : compileFcode 0xC5 (e.grow bs (ks.map e.place ++ 0 :: st)) = _ :=
    compileFcode_grow hR 0xC5 [0xC5] (.inl (by decide)) rfl hroom
  have hlow : 1 ≤ (e.grow bs (ks.map e.place ++ 0 :: st)).stack.length := by
    show 1 ≤ (ks.map e.place ++ 0 :: st).length
    rw [List.length_append, List.length_cons]
    omega
  have hends := patchEnds_grow hR (bs.length + 1) ks (bs ++ [0xC5]) st
    (ks.map e.place ++ 0 :: st) (fun k hk => by
      rw [List.length_append]
      exact ⟨Nat.le_succ_of_le (h k hk).1, (h k hk).2⟩) (by rw [List.length_append]; rfl) hroom
  have hon : (e.grow bs (ks.map e.place ++ 0 :: st)).iscompiling = true := hR.compiling
  rw [fEndcase, ready_if hR, fBendcase, if_pos hon, ifcksp_low hlow, hcode]
  show (Tail.resolve, patchEnds (e.fbrk + (bs ++ [0xC5]).length) _ (e.grow _ _)) = _
  rw [List.length_append]
  exact congrArg _ (hends.trans (by rw [patchAll_append _ _ _ _ fun k hk => (h k hk).1]))

end Commands

end Pegasos2.Forth
