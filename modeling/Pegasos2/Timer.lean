import Pegasos2.Program
import Mathlib.Tactic.NormNum

namespace Pegasos2.Timer
open Program
set_option autoImplicit true

abbrev Word := BitVec 32

def fsbHzDefault : Word := 133000000#32

/-- `_dec_reload` after `timer_calibrate`, for what the clock generator reports. -/
def timerCalibrate (probed : Word) : Word :=
  (if probed ≠ 0#32 then probed else fsbHzDefault) / 4#32 / 1000#32

/-- The time base, by what it has counted up to each reading. It never goes back. -/
structure TimeBase where
  ticks : Nat → Nat
  mono : ∀ n, ticks n ≤ ticks (n + 1)

/-- `mftb`: the lower word of the time base. The state is the number of readings so far. -/
def mftb (tb : TimeBase) : Prog Nat Word := .access fun n => (BitVec.ofNat 32 (tb.ticks n), n + 1)

def waitTicks (us tbPerMs : Word) : Word := (us * tbPerMs + 999#32) / 1000#32

/-- The loop `while (n--)`. -/
def spin (n : Word) : Prog σ Unit :=
  .loop (fun n : Word => pure (if n = 0#32 then .inr () else .inl (n - 1#32))) n

/-- A round of the wait. -/
def waitRound (tb : TimeBase) (start wait : Word) : Prog Nat (Unit ⊕ Unit) := do
  let now ← mftb tb
  pure (if now - start < wait then .inl () else .inr ())

/-- `decReload` is `_dec_reload`, the ticks per millisecond. -/
def uSleep (tb : TimeBase) (us decReload : Word) : Prog Nat Unit :=
  if decReload = 0#32 then spin (us * 100#32)
  else do
    let start ← mftb tb
    .loop (fun _ => waitRound tb start (waitTicks us decReload)) ()

theorem TimeBase.le (tb : TimeBase) (h : n ≤ m) : tb.ticks n ≤ tb.ticks m := by
  induction h with
  | refl => exact Nat.le_refl _
  | step _ ih => exact Nat.le_trans ih (tb.mono _)

/-- The difference of two readings is what has passed between them, up to a multiple of the word
size. -/
theorem toNat_reading_sub (h : s ≤ t) :
    (BitVec.ofNat 32 t - BitVec.ofNat 32 s).toNat = (t - s) % 2 ^ 32 := by
  rw [BitVec.toNat_sub, BitVec.toNat_ofNat, BitVec.toNat_ofNat]
  omega

theorem mftb_halts (tb : TimeBase) (n : Nat) :
    Prog.Halts (mftb tb) n (BitVec.ofNat 32 (tb.ticks n)) (n + 1) := .access _ n

theorem toNat_waitTicks (us tbPerMs : Word) :
    (waitTicks us tbPerMs).toNat = (us.toNat * tbPerMs.toNat + 999) % 2 ^ 32 / 1000 := by
  have hsum : (us * tbPerMs + 999#32).toNat = (us.toNat * tbPerMs.toNat + 999) % 2 ^ 32 := by
    rw [BitVec.toNat_add, BitVec.toNat_mul, BitVec.toNat_ofNat, Nat.mod_add_mod]
  rw [waitTicks, BitVec.toNat_udiv, hsum]
  rfl

/-- The product is rounded up as long as it fits into a word, and otherwise comes out too small. -/
theorem le_waitTicks_iff (us tbPerMs : Word) :
    us.toNat * tbPerMs.toNat ≤ 1000 * (waitTicks us tbPerMs).toNat ↔
      us.toNat * tbPerMs.toNat + 999 < 2 ^ 32 := by
  rw [toNat_waitTicks]
  generalize us.toNat * tbPerMs.toNat = ticks
  constructor
  · intro hle
    by_contra hwraps
    have hmod := Nat.mod_lt (ticks + 999) (by decide : 0 < 2 ^ 32)
    omega
  · intro hfits
    rw [Nat.mod_eq_of_lt hfits]
    omega

/-- A round of the wait that reads the time base for the `n`-th time. -/
theorem waitRound_halts (tb : TimeBase) (hle : n₀ ≤ n) (wait : Word) :
    Prog.Halts (waitRound tb (BitVec.ofNat 32 (tb.ticks n₀)) wait) n
      (if (tb.ticks n - tb.ticks n₀) % 2 ^ 32 < wait.toNat then .inl () else .inr ()) (n + 1) := by
  have hround : BitVec.ofNat 32 (tb.ticks n) - BitVec.ofNat 32 (tb.ticks n₀) < wait ↔
      (tb.ticks n - tb.ticks n₀) % 2 ^ 32 < wait.toNat := by
    rw [BitVec.lt_def, toNat_reading_sub (tb.le hle)]
  apply (mftb_halts tb n).bind
  simp only [hround]
  exact .pure _ _

theorem wait_passed {tb : TimeBase} (hle : n₀ ≤ n)
    (h : Prog.Halts (.loop (fun _ => waitRound tb (BitVec.ofNat 32 (tb.ticks n₀)) wait) ()) n ()
      m) :
    wait.toNat ≤ tb.ticks m - tb.ticks n₀ := by
  apply h.loop_rec (fun _ n _ m => n₀ ≤ n → wait.toNat ≤ tb.ticks m - tb.ticks n₀) ?_ ?_ hle
  · intro _ n _ m hround hle
    obtain ⟨hend, rfl⟩ := hround.unique (waitRound_halts tb hle wait)
    split_ifs at hend with hlt
    have hmod := Nat.mod_le (tb.ticks n - tb.ticks n₀) (2 ^ 32)
    have hmono := tb.mono n
    omega
  · intro _ n _ n' _ m hround ih hle
    obtain ⟨-, rfl⟩ := hround.unique (waitRound_halts tb hle wait)
    exact ih (Nat.le_succ_of_le hle)

/-- A wait ends if the time base goes on, and is read so often that no wrap is missed. -/
theorem wait_ends {tb : TimeBase} (hgap : ∀ n, tb.ticks (n + 1) + wait.toNat < tb.ticks n + 2 ^ 32)
    (hgoal : wait.toNat ≤ tb.ticks (n + k) - tb.ticks n₀) (hle : n₀ ≤ n)
    (hnear : tb.ticks n - tb.ticks n₀ < 2 ^ 32) :
    Prog.Ends (.loop (fun _ => waitRound tb (BitVec.ofNat 32 (tb.ticks n₀)) wait) ()) n := by
  induction k generalizing n with
  | zero =>
    have hround := waitRound_halts tb hle wait
    have hover : ¬ tb.ticks n - tb.ticks n₀ < wait.toNat := Nat.not_lt.2 hgoal
    rw [Nat.mod_eq_of_lt hnear, if_neg hover] at hround
    exact hround.loop_done.ends
  | succ k ih =>
    have hround := waitRound_halts tb hle wait
    rw [Nat.mod_eq_of_lt hnear] at hround
    by_cases hearly : tb.ticks n - tb.ticks n₀ < wait.toNat
    · rw [if_pos hearly] at hround
      have hstep := hgap n
      have hgoal' : wait.toNat ≤ tb.ticks (n + 1 + k) - tb.ticks n₀ := by
        rw [Nat.add_right_comm]
        exact hgoal
      obtain ⟨_, m, hrest⟩ := ih hgoal' (Nat.le_succ_of_le hle) (by omega)
      exact (hround.loop_next hrest).ends
    · rw [if_neg hearly] at hround
      exact hround.loop_done.ends

theorem uSleep_ends (tb : TimeBase) (us decReload : Word) (h : decReload ≠ 0#32)
    (hgap : ∀ n, tb.ticks (n + 1) + (waitTicks us decReload).toNat < tb.ticks n + 2 ^ 32)
    (hgrows : ∀ t, ∃ n, t ≤ tb.ticks n) (n₀ : Nat) :
    Prog.Ends (uSleep tb us decReload) n₀ := by
  obtain ⟨n, hn⟩ := hgrows (tb.ticks n₀ + (waitTicks us decReload).toNat)
  have hgoal := tb.le (Nat.le_add_left n (n₀ + 1))
  have hfirst := hgap n₀
  rw [uSleep, if_neg h]
  apply (mftb_halts tb n₀).bind_ends
  exact wait_ends hgap (k := n) (by omega) (Nat.le_succ n₀) (by omega)

/-- The time base stands until it has been read once, and has then counted `wait` ticks. -/
def jump (start wait : Nat) : TimeBase where
  ticks n := if n = 0 then start else start + wait
  mono n := by
    rw [if_neg (Nat.succ_ne_zero n)]
    split_ifs
    · exact Nat.le_add_right _ _
    · exact Nat.le_refl _

theorem uSleep_jump (us decReload : Word) (start : Nat) (h : decReload ≠ 0#32) :
    Prog.Halts (uSleep (jump start (waitTicks us decReload).toNat) us decReload) 0 () 2 := by
  have hround := waitRound_halts (jump start (waitTicks us decReload).toNat) (Nat.zero_le 1)
    (waitTicks us decReload)
  have hticks : (jump start (waitTicks us decReload).toNat).ticks 1 -
      (jump start (waitTicks us decReload).toNat).ticks 0 = (waitTicks us decReload).toNat :=
    Nat.add_sub_cancel_left _ _
  rw [hticks, Nat.mod_eq_of_lt (BitVec.isLt _), if_neg (Nat.lt_irrefl _)] at hround
  rw [uSleep, if_neg h]
  exact (mftb_halts _ 0).bind hround.loop_done

/-- A wait is long enough if and only if the product of the request and the ticks per millisecond
fits into a word. -/
theorem uSleep_waits_iff (us decReload : Word) (start : Nat) :
    (∀ tb : TimeBase, tb.ticks 0 = start → ∀ n, Prog.Halts (uSleep tb us decReload) 0 () n →
      us.toNat * decReload.toNat ≤ 1000 * (tb.ticks n - start)) ↔
      us.toNat * decReload.toNat + 999 < 2 ^ 32 := by
  rw [← le_waitTicks_iff]
  by_cases hzero : decReload = 0#32
  · subst hzero
    constructor
    · exact fun _ => Nat.zero_le _
    · exact fun _ _ _ _ _ => Nat.zero_le _
  · constructor
    · intro hwaits
      have hticks := hwaits (jump start (waitTicks us decReload).toNat) rfl 2
        (uSleep_jump us decReload start hzero)
      have hstop : (jump start (waitTicks us decReload).toNat).ticks 2 - start =
          (waitTicks us decReload).toNat := Nat.add_sub_cancel_left _ _
      rwa [hstop] at hticks
    · intro hwait tb hstart n hrun
      rw [uSleep, if_neg hzero] at hrun
      have hpassed := wait_passed (Nat.zero_le 1) ((mftb_halts tb 0).bind_iff.1 hrun)
      rw [hstart] at hpassed
      exact Nat.le_trans hwait (Nat.mul_le_mul_left 1000 hpassed)

/-- On a board with the default clock, 129172 microseconds are over after 2 ticks. -/
theorem uSleep_short : ¬ ∀ tb : TimeBase, tb.ticks 0 = 0 → ∀ n,
    Prog.Halts (uSleep tb 129172#32 (timerCalibrate 0#32)) 0 () n →
      (129172#32).toNat * (timerCalibrate 0#32).toNat ≤ 1000 * (tb.ticks n - 0) := by
  intro hwaits
  have hticks := hwaits _ rfl 2 (uSleep_jump 129172#32 (timerCalibrate 0#32) 0 (by decide))
  revert hticks
  decide

end Pegasos2.Timer
