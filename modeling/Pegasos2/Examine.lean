import Pegasos2.Program

namespace Program
set_option autoImplicit true

/-- A computation over the cells of a block, in the order in which it examines them. -/
inductive Look (γ α : Type) where
  | done (a : α)
  | cell (i : Nat) (k : γ → Look γ α)

namespace Look

def seq : Look γ α → (α → Look γ β) → Look γ β
  | .done a, f => f a
  | .cell i k, f => .cell i fun c => (k c).seq f

instance : Monad (Look γ) where
  pure := done
  bind := seq

/-- The cell `i`. -/
def peek (i : Nat) : Look γ γ := .cell i .done

def run (b : Nat → γ) : Look γ α → α
  | .done a => a
  | .cell i k => (k (b i)).run b

/-- The cells that are examined. -/
def examined (b : Nat → γ) : Look γ α → List Nat
  | .done _ => []
  | .cell i k => i :: (k (b i)).examined b

/-- Only cells of the block, which has `n` of them, are examined. -/
def Inside (n : Nat) (b : Nat → γ) (p : Look γ α) : Prop := ∀ i ∈ p.examined b, i < n

instance (n : Nat) (b : Nat → γ) (p : Look γ α) : Decidable (Inside n b p) :=
  inferInstanceAs (Decidable (∀ i ∈ p.examined b, i < n))

@[simp] theorem run_pure (b : Nat → γ) (a : α) : run b (Pure.pure a : Look γ α) = a := rfl

@[simp] theorem run_peek (b : Nat → γ) (i : Nat) : run b (peek i) = b i := rfl

@[simp] theorem run_bind (b : Nat → γ) (p : Look γ α) (f : α → Look γ β) :
    run b (p >>= f) = run b (f (run b p)) := by
  induction p with
  | done a => rfl
  | cell i k ih => exact ih (b i)

theorem examined_bind (b : Nat → γ) (p : Look γ α) (f : α → Look γ β) :
    examined b (p >>= f) = examined b p ++ examined b (f (run b p)) := by
  induction p with
  | done a => rfl
  | cell i k ih => exact congrArg (i :: ·) (ih (b i))

theorem inside_pure (n : Nat) (b : Nat → γ) (a : α) : Inside n b (Pure.pure a : Look γ α) :=
  List.forall_mem_nil _

theorem inside_peek {b : Nat → γ} : Inside n b (peek i) ↔ i < n := List.forall_mem_singleton

theorem inside_bind {b : Nat → γ} {p : Look γ α} {f : α → Look γ β} :
    Inside n b (p >>= f) ↔ Inside n b p ∧ Inside n b (f (run b p)) := by
  rw [Inside, examined_bind, List.forall_mem_append]
  exact Iff.rfl

theorem inside_peek_bind {b : Nat → γ} {f : γ → Look γ α} :
    Inside n b (peek i >>= f) ↔ i < n ∧ Inside n b (f (b i)) :=
  inside_bind.trans (and_congr_left' inside_peek)

/-- The computation examines only cells of the block, and its result is `a`. -/
def Reads (n : Nat) (b : Nat → γ) (p : Look γ α) (a : α) : Prop := Inside n b p ∧ run b p = a

namespace Reads

theorem pure (n : Nat) (b : Nat → γ) (a : α) : Reads n b (Pure.pure a) a :=
  ⟨inside_pure n b a, rfl⟩

theorem peek (b : Nat → γ) (h : i < n) : Reads n b (Look.peek i) (b i) := ⟨inside_peek.2 h, rfl⟩

theorem bind {p : Look γ α} {f : α → Look γ β} (h : Reads n b p a) (hf : Reads n b (f a) x) :
    Reads n b (p >>= f) x := by
  obtain ⟨hp, rfl⟩ := h
  exact ⟨inside_bind.2 ⟨hp, hf.1⟩, (run_bind b p f).trans hf.2⟩

theorem map {p : Look γ α} (f : α → β) (h : Reads n b p a) : Reads n b (f <$> p) (f a) :=
  h.bind (.pure n b (f a))

theorem ite {P : Prop} [Decidable P] {p q : Look γ α} (h : P → Reads n b p a)
    (h' : ¬ P → Reads n b q a') : Reads n b (if P then p else q) (if P then a else a') := by
  split_ifs with hP
  · exact h hP
  · exact h' hP

theorem eq {p : Look γ α} (h : Reads n b p a) (heq : a = a') : Reads n b p a' := heq ▸ h

end Reads

/-- The computation examines only cells of the block if and only if `P` holds, and its result is
`a`. -/
def Examines (n : Nat) (b : Nat → γ) (p : Look γ α) (P : Prop) (a : α) : Prop :=
  (Inside n b p ↔ P) ∧ run b p = a

theorem Reads.examines {p : Look γ α} (h : Reads n b p a) (hP : P) : Examines n b p P a :=
  ⟨iff_of_true h.1 hP, h.2⟩

theorem Examines.after {p : Look γ α} {f : α → Look γ β} (h : Reads n b p a)
    (hf : Examines n b (f a) P x) : Examines n b (p >>= f) P x := by
  obtain ⟨hp, rfl⟩ := h
  exact ⟨inside_bind.trans ((and_iff_right hp).trans hf.1), (run_bind b p f).trans hf.2⟩

theorem Examines.congr {p : Look γ α} (h : Examines n b p P a) (hP : P ↔ P') (ha : a = a') :
    Examines n b p P' a' := ⟨h.1.trans hP, h.2.trans ha⟩

theorem Examines.bind {p : Look γ α} {f : α → Look γ β} (h : Examines n b p P a)
    (hf : Reads n b (f a) x) : Examines n b (p >>= f) P x := by
  obtain ⟨hp, rfl⟩ := h
  exact ⟨inside_bind.trans ((and_iff_left hf.1).trans hp), (run_bind b p f).trans hf.2⟩

theorem Examines.map {p : Look γ α} (f : α → β) (h : Examines n b p P a) :
    Examines n b (f <$> p) P (f a) := h.bind (.pure n b _)

end Look

/-- A program whose steps may be bound to a condition. It ends with `none` at the first step that
breaks its condition. -/
structure Checked (σ α : Type) where
  prog : Prog σ (Option α)

namespace Checked
open Prog

def ret (a : α) : Checked σ α := ⟨pure (some a)⟩

def broken : Checked σ α := ⟨pure none⟩

/-- What follows a step that has not broken its condition. -/
def after (k : α → Checked σ β) : Option α → Prog σ (Option β)
  | none => pure none
  | some a => (k a).prog

def seq (c : Checked σ α) (k : α → Checked σ β) : Checked σ β := ⟨c.prog >>= after k⟩

instance : Monad (Checked σ) where
  pure := ret
  bind := seq

/-- A program without conditions. -/
def lift (p : Prog σ α) : Checked σ α := ⟨p >>= fun a => pure (some a)⟩

/-- A condition. -/
def require (P : Prop) [Decidable P] : Checked σ Unit := if P then ret () else broken

/-- The examination of a block of `n` cells, which must not leave the block. -/
def inspect (n : Nat) (b : Nat → γ) (p : Look γ α) : Checked σ α :=
  if Look.Inside n b p then ret (p.run b) else broken

/-- A round of a loop, which ends where its condition is broken. -/
def turn : Option (α ⊕ β) → α ⊕ Option β
  | none => .inr none
  | some (.inl a) => .inl a
  | some (.inr b) => .inr (some b)

def loop (body : α → Checked σ (α ⊕ β)) (a : α) : Checked σ β :=
  ⟨Prog.loop (fun a => (body a).prog >>= fun x => pure (turn x)) a⟩

/-- A condition is broken in a run from `s`. -/
def Breaks (c : Checked σ α) (s : σ) : Prop := ∃ s', Halts c.prog s none s'

/-- The program does what `p` does, and breaks no condition. -/
def Follows (c : Checked σ α) (p : Prog σ α) : Prop := c = lift p

/-- The program does what `p` does as long as it breaks no condition. -/
def Tracks (c : Checked σ α) (p : Prog σ α) : Prop :=
  ∀ n s, c.prog.run n s = (lift p).prog.run n s ∨ ∃ s', c.prog.run n s = some (none, s')

theorem ext_run {c c' : Checked σ α} (h : ∀ n s, c.prog.run n s = c'.prog.run n s) : c = c' :=
  congrArg mk (Prog.ext_run h)

theorem run_lift {p : Prog σ α} (h : p.run n s = x) :
    (lift p).prog.run n s = x.map fun y => (some y.1, y.2) := by
  show seqRun p _ n s = _
  unfold seqRun
  rw [h]
  cases x with
  | none => rfl
  | some y => rfl

theorem run_seq_none {c : Checked σ α} {k : α → Checked σ β} (h : c.prog.run n s = none) :
    (c >>= k).prog.run n s = none := run_bind_none h

theorem run_seq_broken {c : Checked σ α} {k : α → Checked σ β}
    (h : c.prog.run n s = some (none, s')) : (c >>= k).prog.run n s = some (none, s') :=
  run_bind h

theorem run_seq {c : Checked σ α} {k : α → Checked σ β}
    (h : c.prog.run n s = some (some a, s')) : (c >>= k).prog.run n s = (k a).prog.run n s' :=
  run_bind h

theorem run_loop (body : α → Checked σ (α ⊕ β)) (a : α) (n : Nat) (s : σ) :
    (loop body a).prog.run (n + 1) s =
      ((body a).prog.run n s).bind fun x =>
        (turn x.1).elim (fun a' => (loop body a').prog.run n x.2) fun b => some (b, x.2) := by
  rw [loop, Prog.run_loop, run_map]
  cases (body a).prog.run n s <;> rfl

namespace Follows

theorem pure (a : α) : Follows (Pure.pure a : Checked σ α) (Pure.pure a) := ext_run fun _ _ => rfl

theorem lift (p : Prog σ α) : Follows (Checked.lift p) p := rfl

theorem bind_of {c : Checked σ α} {p : Prog σ α} {k : α → Checked σ β} {q : α → Prog σ β}
    {P : α → Prop} (h : Follows c p) (hP : p.Always P)
    (hk : ∀ a, P a → Follows (k a) (q a)) : Follows (c >>= k) (p >>= q) := by
  obtain rfl : c = Checked.lift p := h
  apply ext_run
  intro n s
  cases hp : p.run n s with
  | none => rw [run_seq_none (run_lift hp), run_lift (run_bind_none hp), Option.map_none]
  | some y =>
    obtain ⟨a, s₁⟩ := y
    have hka : k a = Checked.lift (q a) := hk a (hP s a s₁ ⟨n, hp⟩)
    rw [run_seq (run_lift hp), hka, run_lift rfl, run_lift rfl, run_bind hp]

theorem bind {c : Checked σ α} {p : Prog σ α} {k : α → Checked σ β} {q : α → Prog σ β}
    (h : Follows c p) (hk : ∀ a, Follows (k a) (q a)) : Follows (c >>= k) (p >>= q) :=
  h.bind_of (P := fun _ => True) (fun _ _ _ _ => trivial) fun a _ => hk a

theorem bind_map {c : Checked σ β} {p : Prog σ α} {f : α → β} {k : β → Checked σ γ}
    {q : α → Prog σ γ} (h : Follows c (p >>= fun a => Pure.pure (f a)))
    (hk : ∀ a, Follows (k (f a)) (q a)) : Follows (c >>= k) (p >>= q) := by
  obtain rfl : c = Checked.lift (p >>= fun a => Pure.pure (f a)) := h
  apply ext_run
  intro n s
  cases hp : p.run n s with
  | none => rw [run_seq_none (run_lift (run_bind_none hp)), run_lift (run_bind_none hp)]; rfl
  | some x =>
    obtain ⟨a, s₁⟩ := x
    have hka : k (f a) = Checked.lift (q a) := hk a
    rw [run_seq (a := f a) (run_lift (run_bind hp)), hka, run_lift rfl, run_lift rfl, run_bind hp]

theorem bind_pure {c : Checked σ α} {k : α → Checked σ β} {q : Prog σ β}
    (h : Follows c (Pure.pure a)) (hk : Follows (k a) q) : Follows (c >>= k) q := by
  obtain rfl : c = Checked.lift (Pure.pure a) := h
  exact (ext_run fun _ _ => rfl).trans hk

theorem inspect_bind {b : Nat → γ} {l : Look γ α} {k : α → Checked σ β} {q : Prog σ β}
    (h : l.Reads n b a) (hk : Follows (k a) q) : Follows (inspect n b l >>= k) q := by
  obtain ⟨hin, rfl⟩ := h
  rw [inspect, if_pos hin]
  exact (ext_run fun _ _ => rfl).trans hk

theorem inspect {b : Nat → γ} {l : Look γ α} (h : l.Reads n b a) :
    Follows (inspect n b l : Checked σ α) (Pure.pure a) := by
  obtain ⟨hin, rfl⟩ := h
  rw [Checked.inspect, if_pos hin]
  exact pure _

theorem ite {P : Prop} [Decidable P] {c c' : Checked σ α} {p p' : Prog σ α}
    (h : P → Follows c p) (h' : ¬ P → Follows c' p') :
    Follows (if P then c else c') (if P then p else p') := by
  split_ifs with hP
  · exact h hP
  · exact h' hP

theorem ite_pure {P : Prop} [Decidable P] {c c' : Checked σ α}
    (h : P → Follows c (Pure.pure a)) (h' : ¬ P → Follows c' (Pure.pure a')) :
    Follows (if P then c else c') (Pure.pure (if P then a else a')) := by
  split_ifs with hP
  · exact h hP
  · exact h' hP

theorem inspect_ite {P : Prop} [Decidable P] {b : Nat → γ} {l : Look γ Bool}
    {c c' : Checked σ α} {p p' : Prog σ α} (hl : l.Reads n b (decide P)) (h : P → Follows c p)
    (h' : ¬ P → Follows c' p') :
    Follows (Checked.inspect n b l >>= fun ok => if ok then c else c') (if P then p else p') := by
  apply inspect_bind hl
  simp only [decide_eq_true_eq]
  exact ite h h'

theorem require_bind {P : Prop} [Decidable P] {k : Unit → Checked σ β} {q : Prog σ β} (h : P)
    (hk : Follows (k ()) q) : Follows (require P >>= k) q := by
  rw [require, if_pos h]
  exact (ext_run fun _ _ => rfl).trans hk

theorem loop_map {body' : α' → Checked σ (α' ⊕ β')} {body : α → Prog σ (α ⊕ β)} (I : α → Prop)
    (f : α → α') (g : β → β')
    (hbody : ∀ a, I a → Follows (body' (f a)) (body a >>= fun x => Pure.pure (x.map f g)))
    (hnext : ∀ a, I a → (body a).Always (Sum.elim I fun _ => True)) (h : I a) :
    Follows (loop body' (f a)) (Prog.loop body a >>= fun b => Pure.pure (g b)) := by
  apply ext_run
  intro n s
  rw [run_lift rfl, run_map]
  induction n generalizing a s with
  | zero => rfl
  | succ n ih =>
    have hround : (body' (f a)).prog.run n s = _ :=
      (congrArg (fun c : Checked σ _ => c.prog.run n s) (hbody a h)).trans (run_lift rfl)
    rw [run_loop, Prog.run_loop, hround, run_map]
    cases hb : (body a).run n s with
    | none => rfl
    | some x =>
      obtain ⟨x, s₁⟩ := x
      cases x with
      | inl a' => exact ih (hnext a h s _ s₁ ⟨n, hb⟩) s₁
      | inr b => rfl

theorem loop {body' : α → Checked σ (α ⊕ β)} {body : α → Prog σ (α ⊕ β)} (I : α → Prop)
    (hbody : ∀ a, I a → Follows (body' a) (body a))
    (hnext : ∀ a, I a → (body a).Always (Sum.elim I fun _ => True)) (h : I a) :
    Follows (Checked.loop body' a) (Prog.loop body a) := by
  have hmap : Follows (Checked.loop body' (id a))
      (Prog.loop body a >>= fun b => Pure.pure (id b)) := by
    refine loop_map I id id (fun a ha => ?_) hnext h
    exact (hbody a ha).trans
      (congrArg Checked.lift (bind_pure_same _ (congrFun Sum.map_id_id)).symm)
  exact hmap.trans (congrArg Checked.lift (bind_pure_same _ fun _ => rfl))

theorem loop_of {body' : α → Checked σ (α ⊕ β)} {body : α → Prog σ (α ⊕ β)}
    (hbody : ∀ a, Follows (body' a) (body a)) (a : α) :
    Follows (Checked.loop body' a) (Prog.loop body a) :=
  loop (fun _ => True) (fun a _ => hbody a)
    (fun _ _ => fun _ x _ _ => by cases x <;> exact trivial) trivial

theorem loop_map_of {body' : α' → Checked σ (α' ⊕ β')} {body : α → Prog σ (α ⊕ β)} (f : α → α')
    (g : β → β')
    (hbody : ∀ a, Follows (body' (f a)) (body a >>= fun x => Pure.pure (x.map f g))) (a : α) :
    Follows (Checked.loop body' (f a)) (Prog.loop body a >>= fun b => Pure.pure (g b)) :=
  loop_map (fun _ => True) f g (fun a _ => hbody a)
    (fun _ _ => fun _ x _ _ => by cases x <;> exact trivial) trivial

theorem not_breaks {c : Checked σ α} {p : Prog σ α} (h : Follows c p) (s : σ) : ¬ Breaks c s := by
  obtain rfl : c = Checked.lift p := h
  rintro ⟨s', hrun⟩
  obtain ⟨a, s₁, -, hret⟩ := hrun.of_bind
  exact absurd hret.of_pure.1 (Option.some_ne_none a).symm

end Follows

namespace Tracks

theorem of_follows {c : Checked σ α} {p : Prog σ α} (h : Follows c p) : Tracks c p :=
  fun n s => .inl (congrArg (fun c : Checked σ α => c.prog.run n s) h)

theorem bind {c : Checked σ α} {p : Prog σ α} {k : α → Checked σ β} {q : α → Prog σ β}
    (h : Tracks c p) (hk : ∀ a, Tracks (k a) (q a)) : Tracks (c >>= k) (p >>= q) := by
  intro n s
  obtain hrun | ⟨s', hrun⟩ := h n s
  · cases hp : p.run n s with
    | none =>
      rw [run_seq_none (hrun.trans (run_lift hp)), run_lift (run_bind_none hp)]
      exact .inl rfl
    | some x =>
      rw [run_seq (hrun.trans (run_lift hp)), run_lift (run_bind hp)]
      exact (hk x.1 n x.2).imp (fun hk => hk.trans (run_lift rfl)) id
  · exact .inr ⟨s', run_seq_broken hrun⟩

theorem inspect_bind {b : Nat → γ} {l : Look γ α} {k : α → Checked σ β} {q : Prog σ β}
    (hk : Tracks (k (l.run b)) q) : Tracks (Checked.inspect n b l >>= k) q := by
  rw [Checked.inspect]
  split_ifs
  · exact hk
  · exact fun n s => .inr ⟨s, rfl⟩

theorem inspect (n : Nat) (b : Nat → γ) (l : Look γ α) :
    Tracks (Checked.inspect n b l : Checked σ α) (Pure.pure (l.run b)) := by
  rw [Checked.inspect]
  split_ifs
  · exact of_follows (.pure _)
  · exact fun n s => .inr ⟨s, rfl⟩

theorem loop {body' : α → Checked σ (α ⊕ β)} {body : α → Prog σ (α ⊕ β)}
    (h : ∀ a, Tracks (body' a) (body a)) (a : α) :
    Tracks (Checked.loop body' a) (Prog.loop body a) := by
  intro n s
  rw [run_lift rfl]
  induction n generalizing a s with
  | zero => exact .inl rfl
  | succ n ih =>
    rw [run_loop, Prog.run_loop]
    obtain hrun | ⟨s', hrun⟩ := h a n s
    · rw [hrun, run_lift rfl]
      cases (body a).run n s with
      | none => exact .inl rfl
      | some x =>
        obtain ⟨x, s₁⟩ := x
        cases x with
        | inl a' => exact ih a' s₁
        | inr b => exact .inl rfl
    · rw [hrun]
      exact .inr ⟨s', rfl⟩

end Tracks

theorem breaks_lift_bind {p : Prog σ α} {k : α → Checked σ β} :
    Breaks (lift p >>= k) s ↔ ∃ a s₁, Halts p s a s₁ ∧ Breaks (k a) s₁ := by
  constructor
  · rintro ⟨s', h⟩
    obtain ⟨x, s₁, hx, hk⟩ := h.of_bind
    obtain ⟨a, s₂, hp, hret⟩ := hx.of_bind
    obtain ⟨rfl, rfl⟩ := hret.of_pure
    exact ⟨a, s₁, hp, s', hk⟩
  · rintro ⟨a, s₁, hp, s', hk⟩
    exact ⟨s', Prog.Halts.bind (hp.bind (.pure (some a) s₁)) hk⟩

theorem breaks_inspect {b : Nat → γ} {l : Look γ α} {s : σ} :
    Breaks (inspect n b l : Checked σ α) s ↔ ¬ l.Inside n b := by
  rw [inspect]
  split_ifs with h
  · exact iff_of_false (Follows.not_breaks (.pure _) s) (not_not_intro h)
  · exact iff_of_true ⟨s, .pure none s⟩ h

theorem breaks_reads_bind {b : Nat → γ} {l : Look γ α} {k : α → Checked σ β} {s : σ}
    (h : l.Reads n b a) : Breaks (inspect n b l >>= k) s ↔ Breaks (k a) s := by
  obtain ⟨hin, rfl⟩ := h
  rw [inspect, if_pos hin]
  exact Iff.rfl

theorem breaks_inspect_pure {b : Nat → γ} {l : Look γ α} {f : α → β} {s : σ} :
    Breaks (inspect n b l >>= fun a => pure (f a) : Checked σ β) s ↔ ¬ l.Inside n b := by
  rw [inspect]
  split_ifs with h
  · exact iff_of_false (Follows.not_breaks (.pure (f (l.run b))) s) (not_not_intro h)
  · exact iff_of_true ⟨s, .pure none s⟩ h

theorem Tracks.halts {c : Checked σ α} {p : Prog σ α} (h : Tracks c p) (hp : Halts p s a s') :
    Breaks c s ∨ Halts c.prog s (some a) s' := by
  obtain ⟨n, hn⟩ := hp
  obtain hrun | ⟨s', hrun⟩ := h n s
  · exact .inr ⟨n, hrun.trans (run_lift hn)⟩
  · exact .inl ⟨s', n, hrun⟩

theorem Tracks.of_halts {c : Checked σ α} {p : Prog σ α} (h : Tracks c p)
    (hc : Halts c.prog s (some a) s') : Halts p s a s' := by
  obtain ⟨n, hn⟩ := hc
  obtain hrun | ⟨s', hrun⟩ := h n s
  · obtain ⟨a', s₁, hp, hret⟩ := Halts.of_bind (p := p) ⟨n, hrun.symm.trans hn⟩
    obtain ⟨heq, rfl⟩ := hret.of_pure
    obtain rfl := Option.some.inj heq
    exact hp
  · cases hrun.symm.trans hn

theorem Tracks.breaks_bind {c : Checked σ α} {p : Prog σ α} {k : α → Checked σ β}
    (h : Tracks c p) :
    Breaks (c >>= k) s ↔ Breaks c s ∨ ∃ a s₁, Halts p s a s₁ ∧ Breaks (k a) s₁ := by
  constructor
  · rintro ⟨s', hrun⟩
    obtain ⟨x, s₁, hx, hk⟩ := hrun.of_bind
    cases x with
    | none => exact .inl ⟨s₁, hx⟩
    | some a => exact .inr ⟨a, s₁, h.of_halts hx, s', hk⟩
  · rintro (⟨s', hc⟩ | ⟨a, s₁, hp, s', hk⟩)
    · exact ⟨s', hc.bind (.pure none s')⟩
    · obtain ⟨s₂, hc⟩ | hc := h.halts hp
      · exact ⟨s₂, hc.bind (.pure none s₂)⟩
      · exact ⟨s', hc.bind hk⟩

theorem breaks_loop {body' : α → Checked σ (α ⊕ β)} {body : α → Prog σ (α ⊕ β)}
    (h : ∀ a, Tracks (body' a) (body a)) {a : α} {s : σ} :
    Breaks (loop body' a) s ↔ ∃ a' s', Comes body a s a' s' ∧ Breaks (body' a') s' := by
  constructor
  · rintro ⟨s', hrun⟩
    generalize hb : (none : Option β) = b at hrun
    revert hb
    apply Prog.Halts.loop_rec (fun a s b _ => none = b →
      ∃ a' s', Comes body a s a' s' ∧ Breaks (body' a') s') ?_ ?_ hrun
    · rintro a s b s' hround rfl
      obtain ⟨x, s₁, hx, hret⟩ := hround.of_bind
      obtain ⟨hturn, rfl⟩ := hret.of_pure
      rcases x with _ | (a' | b)
      · exact ⟨a, s, .here, s', hx⟩
      · exact absurd hturn Sum.inr_ne_inl
      · exact absurd (Sum.inr.inj hturn) (Option.some_ne_none b).symm
    · intro a s a' s₁ b s' hround hrest hb
      obtain ⟨x, s₂, hx, hret⟩ := hround.of_bind
      obtain ⟨hturn, rfl⟩ := hret.of_pure
      obtain ⟨a₂, s₂, hcomes, hbreaks⟩ := hrest hb
      rcases x with _ | (a₁ | b')
      · exact absurd hturn Sum.inl_ne_inr
      · obtain rfl := Sum.inl.inj hturn
        exact ⟨a₂, s₂, .next ((h a).of_halts hx) hcomes, hbreaks⟩
      · exact absurd hturn Sum.inl_ne_inr
  · rintro ⟨a', s', hcomes, hbreaks⟩
    induction hcomes with
    | here =>
      obtain ⟨s₁, hrun⟩ := hbreaks
      exact ⟨s₁, Prog.Halts.loop_done (hrun.bind (.pure _ s₁))⟩
    | next hround _ ih =>
      obtain ⟨s₁, hrun⟩ | hrun := (h _).halts hround
      · exact ⟨s₁, Prog.Halts.loop_done (hrun.bind (.pure _ s₁))⟩
      · obtain ⟨s₂, hrest⟩ := ih hbreaks
        exact ⟨s₂, Prog.Halts.loop_next (hrun.bind (.pure _ _)) hrest⟩

end Checked

end Program
