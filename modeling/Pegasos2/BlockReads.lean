import Pegasos2.AmigaVolume
import Pegasos2.ByteLooks

namespace Pegasos2.Fs
open Program Look
set_option autoImplicit true

/-- The sum of the first `k` longs of a block. -/
def lookChecksum : Nat → Look UInt8 Nat
  | 0 => pure 0
  | k + 1 => do
    let sum ← lookChecksum k
    let long ← lookBe32 (k * 4)
    pure (u32 (sum + long))

theorem reads_checksum (b : Buf) (h : k * 4 ≤ n) :
    Reads n b (lookChecksum k) (Rdb.checksum b k) := by
  induction k with
  | zero => exact .pure n b 0
  | succ k ih => exact (ih (by omega)).bind ((reads_be32 b (by omega)).bind (.pure n b _))

/-- The length of the string at `p`, which has at most `k` bytes. -/
def lookCstringLen (p : Nat) : Nat → Look UInt8 Nat
  | 0 => pure 0
  | k + 1 => do
    let c ← peek p
    if c = 0 then pure 0
    else do
      let len ← lookCstringLen (p + 1) k
      pure (len + 1)

def lookBytes (p : Nat) : Nat → Look UInt8 (List UInt8)
  | 0 => pure []
  | k + 1 => do
    let c ← peek p
    let cs ← lookBytes (p + 1) k
    pure (c :: cs)

/-- The loop that compares the bytes at `p` with those of a name, up to the first difference. -/
def lookSame (fold : UInt8 → UInt8) (p : Nat) : List UInt8 → Look UInt8 Bool
  | [] => pure true
  | c :: cs => do
    let a ← peek p
    if fold a = fold c then lookSame fold (p + 1) cs else pure false

/-- The comparison of the `len` bytes at `p` with a component of a path. -/
def lookNameEq (fold : UInt8 → UInt8) (p len : Nat) (name : List UInt8) : Look UInt8 Bool :=
  if len = u32 name.length then lookSame fold p (name.take len) else pure false

theorem reads_cstringLen (b : Buf) (h : p + k ≤ n) :
    Reads n b (lookCstringLen p k) (cstringLen b p k) := by
  induction k generalizing p with
  | zero => exact .pure n b 0
  | succ k ih =>
    apply (Reads.peek b (by omega)).bind
    rw [cstringLen]
    split_ifs
    · exact .pure n b 0
    · exact (ih (by omega)).bind (.pure n b _)

theorem reads_bytes (b : Buf) (h : p + k ≤ n) : Reads n b (lookBytes p k) (bytes b p k) := by
  induction k generalizing p with
  | zero => exact .pure n b []
  | succ k ih =>
    rw [bytes_succ]
    exact (Reads.peek b (by omega)).bind ((ih (by omega)).bind (.pure n b _))

theorem run_bytes (b : Buf) (p k : Nat) : (lookBytes p k).run b = bytes b p k :=
  (reads_bytes b (Nat.le_refl _)).2

theorem run_same (fold : UInt8 → UInt8) (b : Buf) (p : Nat) (cs : List UInt8) :
    (lookSame fold p cs).run b = ((bytes b p cs.length).map fold == cs.map fold) := by
  induction cs generalizing p with
  | nil => rfl
  | cons c cs ih =>
    rw [lookSame, run_bind, run_peek, List.length_cons, bytes_succ, List.map_cons, List.map_cons,
      List.cons_beq_cons]
    split_ifs with h
    · rw [ih, h, beq_self_eq_true, Bool.true_and]
    · rw [beq_false_of_ne h, Bool.false_and, run_pure]

theorem inside_same {fold : UInt8 → UInt8} {b : Buf} (h : p + cs.length ≤ n) :
    Inside n b (lookSame fold p cs) := by
  induction cs generalizing p with
  | nil => exact inside_pure n b true
  | cons c cs ih =>
    rw [List.length_cons] at h
    rw [lookSame, inside_peek_bind]
    refine ⟨by omega, ?_⟩
    split_ifs
    · exact ih (by omega)
    · exact inside_pure n b false

/-- A comparison leaves the block if the first difference is not before its end. -/
theorem inside_same_iff {fold : UInt8 → UInt8} {b : Buf} (h : p ≤ n) :
    Inside n b (lookSame fold p cs) ↔
      p + cs.length ≤ n ∨ (bytes b p (n - p)).map fold ≠ (cs.take (n - p)).map fold := by
  induction cs generalizing p with
  | nil => exact iff_of_true (inside_pure n b true) (.inl h)
  | cons c cs ih =>
    rw [lookSame, inside_peek_bind, List.length_cons]
    obtain rfl | hlt := Nat.eq_or_lt_of_le h
    · rw [Nat.sub_self, List.take_zero]
      refine iff_of_false (fun hin => Nat.lt_irrefl p hin.1) ?_
      rintro (hend | hne)
      · omega
      · exact hne rfl
    · obtain ⟨k, hk⟩ : ∃ k, n - p = k + 1 := ⟨n - (p + 1), by omega⟩
      have hrest : n - (p + 1) = k := by omega
      rw [and_iff_right hlt, hk, bytes_succ, List.take_succ_cons, List.map_cons, List.map_cons]
      split_ifs with hc
      · rw [ih hlt, hrest, hc, ne_eq, ne_eq, List.cons_inj_right]
        exact or_congr_left (by omega)
      · exact iff_of_true (inside_pure n b false) (.inr fun heq => hc (List.cons.inj heq).1)

theorem run_nameEq (fold : UInt8 → UInt8) (b : Buf) (p len : Nat) (name : List UInt8) :
    (lookNameEq fold p len name).run b = nameEq fold (bytes b p len) name := by
  rw [lookNameEq, nameEq, length_bytes]
  split_ifs with h
  · have hlen : len ≤ name.length := h ▸ Nat.mod_le _ _
    rw [run_same, List.length_take, Nat.min_eq_left hlen, beq_iff_eq.2 h, Bool.true_and]
  · rw [beq_false_of_ne h, Bool.false_and, run_pure]

theorem reads_nameEq (fold : UInt8 → UInt8) (b : Buf) (name : List UInt8) (h : p + len ≤ n) :
    Reads n b (lookNameEq fold p len name) (nameEq fold (bytes b p len) name) := by
  refine ⟨?_, run_nameEq fold b p len name⟩
  rw [lookNameEq]
  split_ifs
  · exact inside_same (Nat.le_trans (Nat.add_le_add_left (List.length_take_le _ _) p) h)
  · exact inside_pure n b false

/-- What follows the read of a block, and breaks no condition if the read fails. -/
theorem breaks_read {rd : Io (Retcode × Buf)} {k : Retcode × Buf → Checked World β}
    (hbad : ∀ x : Retcode × Buf, x.1 ≠ .noError → ∃ y, k x = pure y) :
    (Checked.lift rd >>= k).Breaks w ↔
      ∃ b w', Prog.Halts rd w (.noError, b) w' ∧ (k (.noError, b)).Breaks w' := by
  rw [Checked.breaks_lift_bind]
  constructor
  · rintro ⟨⟨ret, b⟩, w', hread, hbreaks⟩
    by_cases hret : ret = .noError
    · subst hret
      exact ⟨b, w', hread, hbreaks⟩
    · obtain ⟨y, hy⟩ := hbad (ret, b) hret
      rw [hy] at hbreaks
      exact absurd hbreaks ((Checked.Follows.pure y).not_breaks w')
  · rintro ⟨b, w', hread, hbreaks⟩
    exact ⟨(.noError, b), w', hread, hbreaks⟩

/-- The bytes `l` behind those that have been written. -/
def Copied.store (c : Copied) (l : List UInt8) : Copied where
  written := c.written + l.length
  out i := if c.written ≤ i ∧ i < c.written + l.length then l.getD (i - c.written) 0 else c.out i

/-- The bytes `l` are stored in a buffer for `limit` bytes. -/
def checkedStore (limit : Nat) (c : Copied) (l : List UInt8) : Checked World Copied := do
  Checked.require (c.written + l.length ≤ limit)
  pure (c.store l)

theorem Copied.store_bytes (c : Copied) (b : Buf) (off n : Nat) :
    c.store (bytes b off n) = ⟨c.written + n, c.out.copy c.written (fun i => b (off + i)) 0 n⟩ := by
  rw [store, length_bytes]
  congr 1
  funext i
  rw [Buf.copy]
  split_ifs with h
  · rw [getD_bytes _ _ (by omega), Nat.zero_add]
  · rfl

theorem Copied.store_store (c : Copied) (l l' : List UInt8) :
    (c.store l).store l' = c.store (l ++ l') := by
  rw [store, store, store, List.length_append]
  congr 1
  · exact Nat.add_assoc _ _ _
  · funext i
    dsimp only
    by_cases hnew : c.written + l.length ≤ i ∧ i < c.written + l.length + l'.length
    · rw [if_pos hnew, if_pos (by omega), List.getD_append_right _ _ _ _ (by omega)]
      congr 1
      omega
    · rw [if_neg hnew]
      by_cases hold : c.written ≤ i ∧ i < c.written + l.length
      · rw [if_pos hold, if_pos (by omega), List.getD_append _ _ _ _ (by omega)]
      · rw [if_neg hold, if_neg (by omega)]

theorem Copied.append_eq_store (c : Copied) (limit size : Nat) (b : Buf) :
    c.append limit size b = c.store (bytes b 0 (min (limit - c.written) size)) := by
  rw [store_bytes]
  simp only [Nat.zero_add]
  rfl

theorem store_follows (c : Copied) (limit size : Nat) (b : Buf) (h : c.written ≤ limit) :
    (checkedStore limit c (bytes b 0 (min (limit - c.written) size))).Follows
      (pure (c.append limit size b)) := by
  apply Checked.Follows.require_bind
  · rw [length_bytes]
    omega
  · rw [Copied.append_eq_store]
    exact .pure _

end Pegasos2.Fs
