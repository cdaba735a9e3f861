import Mathlib.Tactic.Common

namespace Program
set_option autoImplicit true

/-- A program over a state, run with an amount of fuel. `none` says that the fuel did not suffice
for its loops; more fuel never changes a result. -/
structure Prog (σ α : Type) where
  run : Nat → σ → Option (α × σ)
  mono : ∀ n s x, run n s = some x → run (n + 1) s = some x

namespace Prog

def ret (a : α) : Prog σ α := ⟨fun _ s => some (a, s), fun _ _ _ h => h⟩

def seqRun (p : Prog σ α) (k : α → Prog σ β) (n : Nat) (s : σ) : Option (β × σ) :=
  match p.run n s with
  | none => none
  | some (a, s') => (k a).run n s'

def seq (p : Prog σ α) (k : α → Prog σ β) : Prog σ β where
  run := seqRun p k
  mono n s x h := by
    rw [seqRun] at h ⊢
    cases hp : p.run n s with
    | none =>
      rw [hp] at h
      exact absurd h (Option.some_ne_none x).symm
    | some y =>
      rw [hp] at h
      rw [p.mono n s y hp]
      exact (k y.1).mono n y.2 x h

instance : Monad (Prog σ) where
  pure := ret
  bind := seq

def loopRun (body : α → Prog σ (α ⊕ β)) : α → Nat → σ → Option (β × σ)
  | _, 0, _ => none
  | a, n + 1, s =>
    match (body a).run n s with
    | none => none
    | some (.inl a', s') => loopRun body a' n s'
    | some (.inr b, s') => some (b, s')

/-- The program `while (1) ...`: a round ends with the variables of the next round or with the
result of the loop. -/
def loop (body : α → Prog σ (α ⊕ β)) (a : α) : Prog σ β where
  run := loopRun body a
  mono n s x h := by
    induction n generalizing a s with
    | zero => exact absurd h (Option.some_ne_none x).symm
    | succ n ih =>
      rw [loopRun] at h ⊢
      cases hb : (body a).run n s with
      | none =>
        rw [hb] at h
        exact absurd h (Option.some_ne_none x).symm
      | some y =>
        rw [hb] at h
        rw [(body a).mono n s y hb]
        obtain ⟨y, s'⟩ := y
        cases y with
        | inl a' => exact ih a' s' h
        | inr b => exact h

/-- Access to the state. -/
def access (f : σ → α × σ) : Prog σ α := ⟨fun _ s => some (f s), fun _ _ _ h => h⟩

theorem mono_le (p : Prog σ α) (h : p.run n s = some x) (hle : n ≤ m) : p.run m s = some x := by
  induction hle with
  | refl => exact h
  | step _ ih => exact p.mono _ s x ih

/-- The program ends with `a` in the state `s'`. -/
def Halts (p : Prog σ α) (s : σ) (a : α) (s' : σ) : Prop := ∃ n, p.run n s = some (a, s')

/-- The program does not end. -/
def Diverges (p : Prog σ α) (s : σ) : Prop := ∀ n, p.run n s = none

theorem halts_or_diverges (p : Prog σ α) (s : σ) :
    (∃ a s', Halts p s a s') ∨ Diverges p s := by
  by_cases h : ∃ n, p.run n s ≠ none
  · obtain ⟨n, hn⟩ := h
    obtain ⟨x, hx⟩ := Option.ne_none_iff_exists'.1 hn
    exact .inl ⟨x.1, x.2, n, hx⟩
  · exact .inr fun n => not_not.1 fun hn => h ⟨n, hn⟩

theorem Halts.unique {p : Prog σ α} (h : Halts p s a s₁) (h' : Halts p s b s₂) :
    a = b ∧ s₁ = s₂ := by
  obtain ⟨n, hn⟩ := h
  obtain ⟨m, hm⟩ := h'
  have heq := (p.mono_le hn (Nat.le_add_right n m)).symm.trans
    (p.mono_le hm (Nat.le_add_left m n))
  exact Prod.mk.injEq _ _ _ _ ▸ Option.some.inj heq

theorem Halts.not_diverges {p : Prog σ α} (h : Halts p s a s') : ¬ Diverges p s := by
  obtain ⟨n, hn⟩ := h
  exact fun hd => absurd ((hd n).symm.trans hn) (Option.some_ne_none _).symm

theorem Halts.pure (a : α) (s : σ) : Halts (Pure.pure a : Prog σ α) s a s := ⟨0, rfl⟩

theorem Halts.access (f : σ → α × σ) (s : σ) : Halts (access f) s (f s).1 (f s).2 := ⟨0, rfl⟩

theorem Halts.of_access {f : σ → α × σ} (h : Halts (Prog.access f) s a s') :
    a = (f s).1 ∧ s' = (f s).2 :=
  h.unique (.access f s)

theorem Halts.of_pure {a : α} (h : Halts (Pure.pure a : Prog σ α) s b s') : b = a ∧ s' = s :=
  h.unique (.pure a s)

theorem run_bind {p : Prog σ α} {k : α → Prog σ β} (h : p.run n s = some (a, s')) :
    (p >>= k).run n s = (k a).run n s' := by
  show seqRun p k n s = (k a).run n s'
  rw [seqRun, h]

theorem Halts.bind {p : Prog σ α} {k : α → Prog σ β} (h : Halts p s a s₁)
    (hk : Halts (k a) s₁ b s₂) : Halts (p >>= k) s b s₂ := by
  obtain ⟨n, hn⟩ := h
  obtain ⟨m, hm⟩ := hk
  refine ⟨n + m, ?_⟩
  rw [run_bind (p.mono_le hn (Nat.le_add_right n m))]
  exact (k a).mono_le hm (Nat.le_add_left m n)

theorem Halts.of_bind {p : Prog σ α} {k : α → Prog σ β} (h : Halts (p >>= k) s b s₂) :
    ∃ a s₁, Halts p s a s₁ ∧ Halts (k a) s₁ b s₂ := by
  obtain ⟨n, hn⟩ := h
  have hn' : seqRun p k n s = some (b, s₂) := hn
  rw [seqRun] at hn'
  cases hp : p.run n s with
  | none =>
    rw [hp] at hn'
    exact absurd hn' (Option.some_ne_none _).symm
  | some x =>
    rw [hp] at hn'
    exact ⟨x.1, x.2, ⟨n, hp⟩, ⟨n, hn'⟩⟩

theorem Halts.bind_iff {p : Prog σ α} {k : α → Prog σ β} (h : Halts p s a s₁) :
    Halts (p >>= k) s b s₂ ↔ Halts (k a) s₁ b s₂ := by
  refine ⟨fun hb => ?_, fun hk => h.bind hk⟩
  obtain ⟨a', s', hp, hk⟩ := hb.of_bind
  obtain ⟨rfl, rfl⟩ := h.unique hp
  exact hk

/-- The program ends. -/
def Ends (p : Prog σ α) (s : σ) : Prop := ∃ a s', Halts p s a s'

theorem Halts.ends {p : Prog σ α} (h : Halts p s a s') : Ends p s := ⟨a, s', h⟩

theorem Ends.pure (a : α) (s : σ) : Ends (Pure.pure a : Prog σ α) s := (Halts.pure a s).ends

theorem Halts.bind_ends {p : Prog σ α} {k : α → Prog σ β} (h : Halts p s a s₁)
    (hk : Ends (k a) s₁) : Ends (p >>= k) s := by
  obtain ⟨b, s₂, hb⟩ := hk
  exact (h.bind hb).ends

theorem Halts.loop_next {body : α → Prog σ (α ⊕ β)} (h : Halts (body a) s (.inl a') s₁)
    (hrest : Halts (loop body a') s₁ b s₂) : Halts (loop body a) s b s₂ := by
  obtain ⟨n, hn⟩ := h
  obtain ⟨m, hm⟩ := hrest
  refine ⟨n + m + 1, ?_⟩
  show loopRun body a (n + m + 1) s = some (b, s₂)
  rw [loopRun, (body a).mono_le hn (Nat.le_add_right n m)]
  exact (loop body a').mono_le hm (Nat.le_add_left m n)

theorem Halts.loop_done {body : α → Prog σ (α ⊕ β)} (h : Halts (body a) s (.inr b) s') :
    Halts (loop body a) s b s' := by
  obtain ⟨n, hn⟩ := h
  refine ⟨n + 1, ?_⟩
  show loopRun body a (n + 1) s = some (b, s')
  rw [loopRun, hn]

/-- A loop that ends does so after its first round, or goes on with the next one. -/
theorem Halts.of_loop {body : α → Prog σ (α ⊕ β)} (h : Halts (loop body a) s b s') :
    Halts (body a) s (.inr b) s' ∨
      ∃ a' s₁, Halts (body a) s (.inl a') s₁ ∧ Halts (loop body a') s₁ b s' := by
  obtain ⟨n, hn⟩ := h
  have hn' : loopRun body a n s = some (b, s') := hn
  cases n with
  | zero => exact absurd hn' (Option.some_ne_none _).symm
  | succ n =>
    rw [loopRun] at hn'
    cases hb : (body a).run n s with
    | none =>
      rw [hb] at hn'
      exact absurd hn' (Option.some_ne_none _).symm
    | some x =>
      rw [hb] at hn'
      obtain ⟨x, s₁⟩ := x
      cases x with
      | inl a' => exact .inr ⟨a', s₁, ⟨n, hb⟩, ⟨n, hn'⟩⟩
      | inr b' =>
        obtain ⟨rfl, rfl⟩ := Prod.mk.injEq _ _ _ _ ▸ Option.some.inj hn'
        exact .inl ⟨n, hb⟩

theorem Halts.loop_iff {body : α → Prog σ (α ⊕ β)} (h : Halts (body a) s (.inl a') s₁) :
    Halts (loop body a) s b s₂ ↔ Halts (loop body a') s₁ b s₂ := by
  refine ⟨fun hloop => ?_, fun hrest => h.loop_next hrest⟩
  obtain hdone | ⟨a₂, s', hnext, hrest⟩ := hloop.of_loop
  · exact absurd (h.unique hdone).1 Sum.inl_ne_inr
  · obtain ⟨heq, rfl⟩ := h.unique hnext
    obtain rfl := Sum.inl.inj heq
    exact hrest

/-- The loop comes to a round with the variables `a'` in the state `s'`. -/
inductive Comes (body : α → Prog σ (α ⊕ β)) : α → σ → α → σ → Prop
  | here : Comes body a s a s
  | next : Halts (body a) s (.inl a') s₁ → Comes body a' s₁ a₂ s₂ → Comes body a s a₂ s₂

/-- What holds of a loop that ends, by its last round and from each other round to the one
before. -/
theorem Halts.loop_rec {body : α → Prog σ (α ⊕ β)} (P : α → σ → β → σ → Prop)
    (hdone : ∀ a s b s', Halts (body a) s (.inr b) s' → P a s b s')
    (hnext : ∀ a s a' s₁ b s', Halts (body a) s (.inl a') s₁ → P a' s₁ b s' → P a s b s')
    (h : Halts (loop body a) s b s') : P a s b s' := by
  obtain ⟨n, hn⟩ := h
  have hn' : loopRun body a n s = some (b, s') := hn
  clear hn
  induction n generalizing a s with
  | zero => exact absurd hn' (Option.some_ne_none _).symm
  | succ n ih =>
    rw [loopRun] at hn'
    cases hb : (body a).run n s with
    | none =>
      rw [hb] at hn'
      exact absurd hn' (Option.some_ne_none _).symm
    | some x =>
      rw [hb] at hn'
      obtain ⟨x, s₁⟩ := x
      cases x with
      | inl a' => exact hnext a s a' s₁ b s' ⟨n, hb⟩ (ih hn')
      | inr b' =>
        obtain ⟨rfl, rfl⟩ := Prod.mk.injEq _ _ _ _ ▸ Option.some.inj hn'
        exact hdone a s b' s₁ ⟨n, hb⟩

theorem Halts.loop_last {body : α → Prog σ (α ⊕ β)} (h : Halts (loop body a) s b s') :
    ∃ a' s₁, Halts (body a') s₁ (.inr b) s' := by
  apply h.loop_rec fun _ _ b s' => ∃ a' s₁, Halts (body a') s₁ (.inr b) s'
  · intro a s b s' hround
    exact ⟨a, s, hround⟩
  · intro a s a' s₁ b s' _ hrest
    exact hrest

theorem Halts.loop_map {body : α → Prog σ (α ⊕ β)} {body' : α' → Prog σ (α' ⊕ β')} (f : α → α')
    (g : β → β')
    (hbody : ∀ a s x s', Halts (body a) s x s' → Halts (body' (f a)) s (x.map f g) s')
    (h : Halts (loop body a) s b s') : Halts (loop body' (f a)) s (g b) s' := by
  apply h.loop_rec fun a s b s' => Halts (loop body' (f a)) s (g b) s'
  · intro a s b s' hround
    exact (hbody a s _ s' hround).loop_done
  · intro a s a' s₁ b s' hround hrest
    exact (hbody a s _ s₁ hround).loop_next hrest

theorem Halts.loop_invariant {body : α → Prog σ (α ⊕ β)} (I : α → σ → Prop) {Q : β → σ → Prop}
    (hnext : ∀ a s a' s', I a s → Halts (body a) s (.inl a') s' → I a' s')
    (hdone : ∀ a s b s', I a s → Halts (body a) s (.inr b) s' → Q b s') (h : I a s)
    (hrun : Halts (loop body a) s b s') : Q b s' := by
  apply hrun.loop_rec (fun a s b s' => I a s → Q b s') ?_ ?_ h
  · intro a s b s' hround hI
    exact hdone a s b s' hI hround
  · intro a s a' s₁ b s' hround hrest hI
    exact hrest (hnext a s a' s₁ hI hround)

/-- The program ends, with a result and a state that satisfy `Q`. -/
def Returns (p : Prog σ α) (s : σ) (Q : α → σ → Prop) : Prop := ∃ a s', Halts p s a s' ∧ Q a s'

namespace Returns

theorem pure {Q : α → σ → Prop} (h : Q a s) : Returns (Pure.pure a : Prog σ α) s Q :=
  ⟨a, s, .pure a s, h⟩

theorem access {Q : α → σ → Prop} {f : σ → α × σ} (h : Q (f s).1 (f s).2) :
    Returns (access f) s Q := ⟨(f s).1, (f s).2, .access f s, h⟩

theorem mono {p : Prog σ α} (h : Returns p s Q) (himp : ∀ a s', Q a s' → Q' a s') :
    Returns p s Q' := by
  obtain ⟨a, s', hp, hQ⟩ := h
  exact ⟨a, s', hp, himp a s' hQ⟩

theorem bind {p : Prog σ α} {k : α → Prog σ β} (h : Returns p s P)
    (hk : ∀ a s', P a s' → Returns (k a) s' Q) : Returns (p >>= k) s Q := by
  obtain ⟨a, s₁, hp, hP⟩ := h
  obtain ⟨b, s₂, hb, hQ⟩ := hk a s₁ hP
  exact ⟨b, s₂, hp.bind hb, hQ⟩

theorem after {p : Prog σ α} {k : α → Prog σ β} (h : Halts p s a s₁) (hk : Returns (k a) s₁ Q) :
    Returns (p >>= k) s Q := by
  obtain ⟨b, s₂, hb, hQ⟩ := hk
  exact ⟨b, s₂, h.bind hb, hQ⟩

/-- What a round of a loop with the invariant `I` leaves: the invariant and a smaller measure, or
the result of the loop. -/
def Round (I : α → σ → Prop) (μ : α → Nat) (m : Nat) (Q : β → σ → Prop) : α ⊕ β → σ → Prop
  | .inl a, s => I a s ∧ μ a < m
  | .inr b, s => Q b s

theorem loop {body : α → Prog σ (α ⊕ β)} (I : α → σ → Prop) (μ : α → Nat)
    (hbody : ∀ a s, I a s → Returns (body a) s (Round I μ (μ a) Q)) (h : I a s) :
    Returns (Prog.loop body a) s Q := by
  generalize hm : μ a = m
  induction m using Nat.strongRecOn generalizing a s with
  | ind m ih =>
    obtain ⟨x, s₁, hx, hpost⟩ := hbody a s h
    cases x with
    | inl a' =>
      obtain ⟨b, s₂, hb, hQ⟩ := ih _ (hm ▸ hpost.2) hpost.1 rfl
      exact ⟨b, s₂, hx.loop_next hb, hQ⟩
    | inr b => exact ⟨b, s₁, hx.loop_done, hpost⟩

end Returns

/-- The program ends in every state, with a result that satisfies `Q`. -/
def Yields (p : Prog σ α) (Q : α → Prop) : Prop := ∀ s, Returns p s fun a _ => Q a

/-- The program ends in every state. -/
def Total (p : Prog σ α) : Prop := Yields p fun _ => True

theorem Total.ends {p : Prog σ α} (h : Total p) (s : σ) : Ends p s := by
  obtain ⟨a, s', hp, -⟩ := h s
  exact hp.ends

namespace Yields

theorem pure {Q : α → Prop} (h : Q a) : Yields (Pure.pure a : Prog σ α) Q :=
  fun _ => Returns.pure h

theorem access {Q : α → Prop} {f : σ → α × σ} (h : ∀ s, Q (f s).1) :
    Yields (Prog.access f) Q := fun s => Returns.access (h s)

theorem mono {p : Prog σ α} {Q Q' : α → Prop} (h : Yields p Q) (himp : ∀ a, Q a → Q' a) :
    Yields p Q' := fun s => (h s).mono fun a _ => himp a

theorem total {p : Prog σ α} {Q : α → Prop} (h : Yields p Q) : Total p :=
  h.mono fun _ _ => trivial

theorem bind {p : Prog σ α} {k : α → Prog σ β} {P : α → Prop} {Q : β → Prop} (h : Yields p P)
    (hk : ∀ a, P a → Yields (k a) Q) : Yields (p >>= k) Q :=
  fun s => (h s).bind fun a s' ha => hk a ha s'

theorem and {p : Prog σ α} {P Q : α → Prop} (h : Yields p P) (h' : Yields p Q) :
    Yields p fun a => P a ∧ Q a := by
  intro s
  obtain ⟨a, s₁, ha, hP⟩ := h s
  obtain ⟨b, s₂, hb, hQ⟩ := h' s
  obtain ⟨rfl, rfl⟩ := ha.unique hb
  exact ⟨a, s₁, ha, hP, hQ⟩

/-- What a round leaves: the next variables, with the invariant `I` and a smaller measure, or the
result of the loop. -/
def Next (I : α → Prop) (μ : α → Nat) (m : Nat) (Q : β → Prop) : α ⊕ β → Prop
  | .inl a => I a ∧ μ a < m
  | .inr b => Q b

theorem loop {body : α → Prog σ (α ⊕ β)} {Q : β → Prop} (I : α → Prop) (μ : α → Nat)
    (hbody : ∀ a, I a → Yields (body a) (Next I μ (μ a) Q)) (h : I a) :
    Yields (Prog.loop body a) Q := by
  intro s
  refine Returns.loop (fun a _ => I a) μ (fun a s ha => ?_) h
  apply (hbody a ha s).mono
  intro x s' hx
  cases x with
  | inl a' => exact hx
  | inr b => exact hx

theorem loop_once {body : α → Prog σ (α ⊕ β)} {Q : β → Prop}
    (h : Yields (body a) fun x => ∃ b, x = .inr b ∧ Q b) : Yields (Prog.loop body a) Q := by
  intro s
  obtain ⟨x, s', hx, b, rfl, hb⟩ := h s
  exact ⟨b, s', hx.loop_done, hb⟩

theorem loop_unfold {body : α → Prog σ (α ⊕ β)} {Q : β → Prop}
    (h : Yields (body a) (Sum.elim (fun a' => Yields (Prog.loop body a') Q) Q)) :
    Yields (Prog.loop body a) Q := by
  intro s
  obtain ⟨x, s', hx, hpost⟩ := h s
  cases x with
  | inl a' =>
    obtain ⟨b, s'', hb, hQ⟩ := hpost s'
    exact ⟨b, s'', hx.loop_next hb, hQ⟩
  | inr b => exact ⟨b, s', hx.loop_done, hpost⟩

theorem loop_next {body : α → Prog σ (α ⊕ β)} {Q : β → Prop}
    (h : Yields (body a) fun x => ∃ a', x = .inl a' ∧ Yields (Prog.loop body a') Q) :
    Yields (Prog.loop body a) Q := by
  intro s
  obtain ⟨x, s', hx, a', rfl, hrest⟩ := h s
  obtain ⟨b, s'', hb, hQ⟩ := hrest s'
  exact ⟨b, s'', hx.loop_next hb, hQ⟩

end Yields

theorem Total.pure (a : α) : Total (Pure.pure a : Prog σ α) := Yields.pure trivial

theorem Total.bind {p : Prog σ α} {k : α → Prog σ β} (h : Total p) (hk : ∀ a, Total (k a)) :
    Total (p >>= k) := Yields.bind h fun a _ => hk a

/-- A loop without a result to speak of: every round ends, and makes the measure smaller. -/
theorem Total.loop {body : α → Prog σ (α ⊕ β)} (μ : α → Nat)
    (hbody : ∀ a, Yields (body a) (Yields.Next (fun _ => True) μ (μ a) fun _ => True)) (a : α) :
    Total (Prog.loop body a) := Yields.loop (fun _ => True) μ (fun a _ => hbody a) trivial

/-- A result of the program, if there is one, satisfies `Q`. -/
def Always (p : Prog σ α) (Q : α → Prop) : Prop := ∀ s a s', Halts p s a s' → Q a

namespace Always

theorem pure {Q : α → Prop} (h : Q a) : Always (Pure.pure a : Prog σ α) Q :=
  fun _ _ _ hrun => hrun.of_pure.1 ▸ h

theorem bind {p : Prog σ α} {k : α → Prog σ β} {P : α → Prop} {Q : β → Prop} (h : Always p P)
    (hk : ∀ a, P a → Always (k a) Q) : Always (p >>= k) Q := by
  intro s b s' hrun
  obtain ⟨a, s₁, hp, hrest⟩ := hrun.of_bind
  exact hk a (h s a s₁ hp) s₁ b s' hrest

theorem and {p : Prog σ α} {P Q : α → Prop} (h : Always p P) (h' : Always p Q) :
    Always p fun a => P a ∧ Q a :=
  fun s a s' hrun => ⟨h s a s' hrun, h' s a s' hrun⟩

theorem after {p : Prog σ α} {k : α → Prog σ β} {Q : β → Prop} (hk : ∀ a, Always (k a) Q) :
    Always (p >>= k) Q :=
  bind (P := fun _ => True) (fun _ _ _ _ => trivial) fun a _ => hk a

theorem loop {body : α → Prog σ (α ⊕ β)} {Q : β → Prop} (I : α → Prop)
    (hbody : ∀ a, I a → Always (body a) (Sum.elim I Q)) (h : I a) :
    Always (Prog.loop body a) Q := by
  intro s b s' hrun
  exact hrun.loop_invariant (fun a _ => I a) (Q := fun b _ => Q b)
    (fun a s a' s' ha hround => hbody a ha s _ s' hround)
    (fun a s b s' ha hround => hbody a ha s _ s' hround) h

end Always

/-- The program ends with the same result in every state. -/
def Steady (p : Prog σ α) : Prop := ∃ a, Yields p (· = a)

namespace Steady

theorem pure (a : α) : Steady (Pure.pure a : Prog σ α) := ⟨a, Yields.pure rfl⟩

theorem bind {p : Prog σ α} {k : α → Prog σ β} (h : Steady p) (hk : ∀ a, Steady (k a)) :
    Steady (p >>= k) := by
  obtain ⟨a, ha⟩ := h
  obtain ⟨b, hb⟩ := hk a
  refine ⟨b, ha.bind ?_⟩
  rintro _ rfl
  exact hb

theorem yields {p : Prog σ α} (h : Steady p) (hp : Halts p s a s') : Yields p (· = a) := by
  obtain ⟨b, hb⟩ := h
  obtain ⟨_, _, hb', rfl⟩ := hb s
  obtain ⟨rfl, -⟩ := hb'.unique hp
  exact hb

theorem loop {body : α → Prog σ (α ⊕ β)} (hbody : ∀ a, Steady (body a))
    (h : Ends (Prog.loop body a) s) : Steady (Prog.loop body a) := by
  obtain ⟨b, s', hrun⟩ := h
  apply hrun.loop_rec fun a _ _ _ => Steady (Prog.loop body a)
  · intro a s b s' hround
    refine ⟨b, Yields.loop_unfold ?_⟩
    apply ((hbody a).yields hround).mono
    rintro _ rfl
    exact rfl
  · rintro a s a' s₁ b s' hround ⟨b', hb'⟩
    refine ⟨b', Yields.loop_unfold ?_⟩
    apply ((hbody a).yields hround).mono
    rintro _ rfl
    exact hb'

end Steady

theorem ext_run {p q : Prog σ α} (h : ∀ n s, p.run n s = q.run n s) : p = q := by
  obtain ⟨run, _⟩ := p
  obtain ⟨run', _⟩ := q
  obtain rfl : run = run' := funext fun n => funext fun s => h n s
  rfl

theorem run_bind_none {p : Prog σ α} {q : α → Prog σ β} (h : p.run n s = none) :
    (p >>= q).run n s = none := by
  show seqRun p q n s = none
  rw [seqRun, h]

theorem run_loop (body : α → Prog σ (α ⊕ β)) (a : α) (n : Nat) (s : σ) :
    (loop body a).run (n + 1) s =
      ((body a).run n s).bind fun x =>
        x.1.elim (fun a' => (loop body a').run n x.2) fun b => some (b, x.2) := by
  show loopRun body a (n + 1) s = _
  rw [loopRun]
  cases hb : (body a).run n s with
  | none => rfl
  | some x =>
    obtain ⟨x, s₁⟩ := x
    cases x <;> rfl

theorem run_map (p : Prog σ α) (g : α → β) (n : Nat) (s : σ) :
    (p >>= fun a => pure (g a)).run n s = (p.run n s).map fun x => (g x.1, x.2) := by
  cases hp : p.run n s with
  | none => exact run_bind_none hp
  | some x => exact run_bind hp

theorem bind_pure_same (p : Prog σ α) {f : α → α} (hf : ∀ x, f x = x) :
    (p >>= fun x => pure (f x)) = p := by
  apply ext_run
  intro n s
  rw [run_map]
  cases p.run n s with
  | none => rfl
  | some x => exact congrArg (fun y => some (y, x.2)) (hf x.1)

theorem pure_bind (a : α) (k : α → Prog σ β) : (pure a >>= k) = k a := ext_run fun _ _ => rfl

theorem bind_assoc (p : Prog σ α) (k : α → Prog σ β) (r : β → Prog σ γ) :
    (p >>= k) >>= r = p >>= fun a => k a >>= r := by
  apply ext_run
  intro n s
  cases hp : p.run n s with
  | none => rw [run_bind_none (run_bind_none hp), run_bind_none hp]
  | some x =>
    rw [run_bind hp]
    cases hk : (k x.1).run n x.2 with
    | none => rw [run_bind_none ((run_bind hp).trans hk), run_bind_none hk]
    | some y => rw [run_bind ((run_bind hp).trans hk), run_bind hk]

theorem bind_congr {p : Prog σ α} {k k' : α → Prog σ β} {P : α → Prop} (h : Yields p P)
    (hk : ∀ a, P a → k a = k' a) : p >>= k = p >>= k' := by
  apply ext_run
  intro n s
  show seqRun p k n s = seqRun p k' n s
  rw [seqRun, seqRun]
  cases hp : p.run n s with
  | none => rfl
  | some x =>
    obtain ⟨a, s', ha, hP⟩ := h s
    obtain ⟨heq, -⟩ := ha.unique ⟨n, hp⟩
    rw [heq] at hP
    dsimp only
    rw [hk x.1 hP]

theorem loop_congr {body body' : α → Prog σ (α ⊕ β)} (I : α → Prop)
    (hbody : ∀ a, I a → body a = body' a)
    (hnext : ∀ a, I a → Yields (body a) fun x => ∀ a', x = .inl a' → I a') {a : α} (h : I a) :
    loop body a = loop body' a := by
  apply ext_run
  intro n s
  show loopRun body a n s = loopRun body' a n s
  induction n generalizing a s with
  | zero => rfl
  | succ n ih =>
    rw [loopRun, loopRun, ← hbody a h]
    cases hb : (body a).run n s with
    | none => rfl
    | some x =>
      obtain ⟨x, s'⟩ := x
      obtain ⟨y, s'', hy, hI⟩ := hnext a h s
      obtain ⟨rfl, -⟩ := hy.unique ⟨n, hb⟩
      cases y with
      | inl a' => exact ih (hI a' rfl) s'
      | inr b => rfl

theorem Diverges.loop {body : α → Prog σ (α ⊕ β)} (I : α → σ → Prop)
    (hbody : ∀ a s, I a s → ∃ a' s', Halts (body a) s (.inl a') s' ∧ I a' s')
    (h : I a s) : Diverges (Prog.loop body a) s := by
  intro n
  induction n generalizing a s with
  | zero => rfl
  | succ n ih =>
    show loopRun body a (n + 1) s = none
    rw [loopRun]
    obtain ⟨a', s', hbody, hI⟩ := hbody a s h
    cases hn : (body a).run n s with
    | none => rfl
    | some x =>
      obtain ⟨x, s₁⟩ := x
      obtain ⟨rfl, rfl⟩ := hbody.unique ⟨n, hn⟩
      exact ih hI

end Prog

end Program
