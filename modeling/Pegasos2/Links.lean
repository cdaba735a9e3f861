import Pegasos2.Program
import Mathlib.Data.Set.Finite.Lemmas
import Mathlib.Order.WellFounded
import Mathlib.Logic.Relation

namespace Links
open Program Relation
set_option autoImplicit true

/-- `b` is what the link of `a` leads to. -/
def Linked (next : κ → Option κ) (a b : κ) : Prop := next a = some b

/-- The chain from `a` on ends at `e`. -/
def EndsAt (next : κ → Option κ) (a e : κ) : Prop :=
  ReflTransGen (Linked next) a e ∧ next e = none

/-- The chain from `a` on comes to no cycle. -/
def Acyclic (next : κ → Option κ) (a : κ) : Prop :=
  ∀ b, ReflTransGen (Linked next) a b → ¬ TransGen (Linked next) b b

section

variable {next : κ → Option κ}

theorem Linked.unique (h : Linked next a b) (h' : Linked next a c) : b = c :=
  Option.some.inj (h.symm.trans h')

theorem EndsAt.stop (h : next a = none) : EndsAt next a a := ⟨.refl, h⟩

theorem EndsAt.step (h : next a = some b) (hrest : EndsAt next b e) : EndsAt next a e :=
  ⟨.head h hrest.1, hrest.2⟩

theorem EndsAt.of_step (h : EndsAt next a e) (hab : next a = some b) : EndsAt next b e := by
  obtain ⟨hreach, hend⟩ := h
  cases hreach.cases_head with
  | inl heq =>
    obtain rfl := heq
    cases hab.symm.trans hend
  | inr hstep =>
    obtain ⟨c, hac, hrest⟩ := hstep
    obtain rfl := Linked.unique hac hab
    exact ⟨hrest, hend⟩

theorem EndsAt.of_stop (h : EndsAt next a e) (hstop : next a = none) : e = a := by
  cases h.1.cases_head with
  | inl heq => exact heq.symm
  | inr hstep =>
    obtain ⟨c, hac, -⟩ := hstep
    cases hstop.symm.trans hac

theorem EndsAt.unique (h : EndsAt next a e) (h' : EndsAt next a e') : e = e' := by
  obtain ⟨hreach, hend⟩ := h
  induction hreach using ReflTransGen.head_induction_on with
  | refl => exact (h'.of_stop hend).symm
  | head hstep _ ih => exact ih (h'.of_step hstep)

theorem cycle_step (h : TransGen (Linked next) a a) (hab : next a = some b) :
    TransGen (Linked next) b b := by
  obtain ⟨c, hac, hca⟩ := TransGen.head'_iff.1 h
  obtain rfl := Linked.unique hac hab
  exact TransGen.tail' hca hab

theorem EndsAt.no_cycle (h : EndsAt next a e) : ¬ TransGen (Linked next) a a := by
  obtain ⟨hreach, hend⟩ := h
  induction hreach using ReflTransGen.head_induction_on with
  | refl =>
    intro hcycle
    obtain ⟨c, hec, -⟩ := TransGen.head'_iff.1 hcycle
    cases hend.symm.trans hec
  | head hstep _ ih => exact fun hcycle => ih (cycle_step hcycle hstep)

theorem EndsAt.of_reaches (h : EndsAt next a e) (hab : ReflTransGen (Linked next) a b) :
    EndsAt next b e := by
  induction hab with
  | refl => exact h
  | tail _ hstep ih => exact ih.of_step hstep

theorem EndsAt.acyclic (h : EndsAt next a e) : Acyclic next a :=
  fun _ hab => (h.of_reaches hab).no_cycle

theorem Acyclic.of_lt (f : κ → Nat) (h : ∀ a b, next a = some b → f a < f b) (a : κ) :
    Acyclic next a := by
  have hlt (x y : κ) (hxy : TransGen (Linked next) x y) : f x < f y := by
    induction hxy with
    | single hstep => exact h _ _ hstep
    | tail _ hstep ih => exact ih.trans (h _ _ hstep)
  exact fun b _ hcycle => Nat.lt_irrefl _ (hlt b b hcycle)

/-- A chain through finitely many places ends, unless it comes to a cycle. -/
theorem Acyclic.ends (h : Acyclic next a) {T : Set κ} (hT : T.Finite)
    (hlinks : ∀ a b, next a = some b → b ∈ T) : ∃ e, EndsAt next a e := by
  have hreach : {b | ReflTransGen (Linked next) a b}.Finite := by
    apply (hT.insert a).subset
    intro b hab
    cases hab.cases_tail with
    | inl heq => exact Set.mem_insert_iff.2 (.inl heq)
    | inr hstep =>
      obtain ⟨c, -, hcb⟩ := hstep
      exact Set.mem_insert_of_mem a (hlinks c b hcb)
  have hfinite : Finite {b | ReflTransGen (Linked next) a b} := hreach
  let before (x y : {b | ReflTransGen (Linked next) a b}) : Prop := TransGen (Linked next) y.1 x.1
  have htrans : IsTrans _ before := ⟨fun x y z hxy hyz => hyz.trans hxy⟩
  have hirrefl : Std.Irrefl before := ⟨fun x => h x.1 x.2⟩
  have hwf : WellFounded before := Finite.wellFounded_of_trans_of_irrefl before
  have hall (x : {b | ReflTransGen (Linked next) a b}) : ∃ e, EndsAt next x.1 e := by
    induction x using hwf.induction with
    | h x ih =>
      cases hnext : next x.1 with
      | none => exact ⟨_, .stop hnext⟩
      | some b =>
        obtain ⟨e, he⟩ := ih ⟨b, x.2.tail hnext⟩ (TransGen.single hnext)
        exact ⟨e, he.step hnext⟩
  exact hall ⟨a, .refl⟩

theorem ends_iff_acyclic {T : Set κ} (hT : T.Finite) (hlinks : ∀ a b, next a = some b → b ∈ T)
    (a : κ) : (∃ e, EndsAt next a e) ↔ Acyclic next a := by
  constructor
  · rintro ⟨e, he⟩
    exact he.acyclic
  · exact fun h => h.ends hT hlinks

/-- What a round at `a` leaves: the variables at the next link, or the result of the loop. -/
def Round (next : κ → Option κ) (I : α → Prop) (key : α → κ) (Q : κ → β → Prop) (a : κ) :
    α ⊕ β → Prop
  | .inl a' => I a' ∧ next a = some (key a')
  | .inr b => next a = none ∧ Q a b

variable {body : α → Prog σ (α ⊕ β)} {I : α → Prop} {key : α → κ} {Q : κ → β → Prop}

theorem ends_of_loop (hbody : ∀ a, I a → Prog.Yields (body a) (Round next I key Q (key a)))
    (h : I a) (hends : Prog.Ends (.loop body a) s) : ∃ e, EndsAt next (key a) e := by
  obtain ⟨b, s', n, hn⟩ := hends
  have hn' : Prog.loopRun body a n s = some (b, s') := hn
  clear hn
  induction n generalizing a s with
  | zero => cases hn'
  | succ n ih =>
    obtain ⟨x, s₁, hx, hround⟩ := hbody a h s
    rw [Prog.loopRun] at hn'
    cases hb : (body a).run n s with
    | none =>
      rw [hb] at hn'
      cases hn'
    | some y =>
      obtain ⟨y, s₂⟩ := y
      obtain ⟨rfl, rfl⟩ := hx.unique ⟨n, hb⟩
      rw [hb] at hn'
      cases x with
      | inl a' =>
        obtain ⟨e, he⟩ := ih hround.1 hn'
        exact ⟨e, he.step hround.2⟩
      | inr b' => exact ⟨_, .stop hround.1⟩

theorem loop_yields (hbody : ∀ a, I a → Prog.Yields (body a) (Round next I key Q (key a)))
    (hend : EndsAt next k e) (h : I a) (hk : key a = k) :
    Prog.Yields (.loop body a) (Q e) := by
  obtain ⟨hreach, hstop⟩ := hend
  induction hreach using ReflTransGen.head_induction_on generalizing a with
  | refl =>
    apply Prog.Yields.loop_unfold
    apply (hbody a h).mono
    intro x hx
    rw [hk] at hx
    cases x with
    | inl a' => cases hstop.symm.trans hx.2
    | inr b => exact hx.2
  | head hstep _ ih =>
    apply Prog.Yields.loop_unfold
    apply (hbody a h).mono
    intro x hx
    rw [hk] at hx
    cases x with
    | inl a' => exact ih hx.1 (Option.some.inj (hx.2.symm.trans hstep))
    | inr b => cases hx.1.symm.trans hstep

theorem loop_ends_iff (hbody : ∀ a, I a → Prog.Yields (body a) (Round next I key Q (key a)))
    (h : I a) (s : σ) : Prog.Ends (.loop body a) s ↔ ∃ e, EndsAt next (key a) e := by
  constructor
  · exact ends_of_loop hbody h
  · rintro ⟨e, he⟩
    exact (loop_yields hbody he h rfl).total.ends s

end

end Links
