import Pegasos2.Program

namespace Program
namespace Prog
set_option autoImplicit true

/-- The program that never ends. -/
def never : Prog σ α := ⟨fun _ _ => none, fun _ _ _ h => h⟩

theorem Halts.of_never (h : Halts (never : Prog σ α) s a s') : False := by
  obtain ⟨n, hn⟩ := h
  exact absurd hn (Option.some_ne_none _).symm

theorem Halts.access_eq {f : σ → α × σ} (h : f s = (a, s')) : Halts (Prog.access f) s a s' := by
  have haccess := Halts.access f s
  rwa [h] at haccess

theorem Comes.trans {body : α → Prog σ (α ⊕ β)} (h : Comes body a s a₁ s₁)
    (h' : Comes body a₁ s₁ a₂ s₂) : Comes body a s a₂ s₂ := by
  induction h with
  | here => exact h'
  | next hround _ ih => exact .next hround (ih h')

theorem Comes.snoc {body : α → Prog σ (α ⊕ β)} (h : Comes body a s a₁ s₁)
    (h' : Halts (body a₁) s₁ (.inl a₂) s₂) : Comes body a s a₂ s₂ :=
  h.trans (.next h' .here)

theorem Comes.halts_iff {body : α → Prog σ (α ⊕ β)} (h : Comes body a s a₁ s₁) :
    Halts (loop body a) s b s₂ ↔ Halts (loop body a₁) s₁ b s₂ := by
  induction h with
  | here => exact Iff.rfl
  | next hround _ ih => exact (Halts.loop_iff hround).trans ih

theorem Comes.ends_iff {body : α → Prog σ (α ⊕ β)} (h : Comes body a s a₁ s₁) :
    Ends (loop body a) s ↔ Ends (loop body a₁) s₁ :=
  exists_congr fun _ => exists_congr fun _ => h.halts_iff

/-- Fuel that suffices for a loop suffices, less by one, for what follows its first round. -/
theorem fuel_round {body : α → Prog σ (α ⊕ β)} (h : Halts (body a) s (.inl a₁) s₁)
    (hrun : loopRun body a n s = some x) : ∃ m, m < n ∧ loopRun body a₁ m s₁ = some x := by
  cases n with
  | zero => exact absurd hrun (Option.some_ne_none x).symm
  | succ n =>
    rw [loopRun] at hrun
    cases hb : (body a).run n s with
    | none =>
      rw [hb] at hrun
      exact absurd hrun (Option.some_ne_none x).symm
    | some y =>
      obtain ⟨heq, hstate⟩ := h.unique ⟨n, hb⟩
      obtain ⟨y, s'⟩ := y
      obtain rfl : Sum.inl a₁ = y := heq
      obtain rfl : s₁ = s' := hstate
      rw [hb] at hrun
      exact ⟨n, n.lt_succ_self, hrun⟩

theorem Comes.fuel {body : α → Prog σ (α ⊕ β)} (h : Comes body a s a₁ s₁)
    (hrun : loopRun body a n s = some x) : ∃ m, m ≤ n ∧ loopRun body a₁ m s₁ = some x := by
  induction h generalizing n with
  | here => exact ⟨n, Nat.le_refl n, hrun⟩
  | next hround _ ih =>
    obtain ⟨k, hk, hrest⟩ := fuel_round hround hrun
    obtain ⟨m, hm, hlast⟩ := ih hrest
    exact ⟨m, Nat.le_trans hm (Nat.le_of_lt hk), hlast⟩

theorem Ends.loop_first {body : α → Prog σ (α ⊕ β)} (h : Ends (loop body a) s) :
    Ends (body a) s := by
  obtain ⟨b, s', hb⟩ := h
  obtain hdone | ⟨a', s₁, hnext, -⟩ := hb.of_loop
  · exact hdone.ends
  · exact hnext.ends

/-- From `a` and `t` on, the rounds of a loop carry out the program `p` started in `s`: where `p`
ends, the loop comes to a round as `Q` says, and where `p` does not end, the loop does not. -/
structure Simulates (body : α → Prog τ (α ⊕ γ)) (a : α) (t : τ) (p : Prog σ β) (s : σ)
    (Q : β → σ → α → τ → Prop) : Prop where
  comes : ∀ b s', Halts p s b s' → ∃ a' t', Comes body a t a' t' ∧ Q b s' a' t'
  ends : Ends (loop body a) t → Ends p s

namespace Simulates
variable {body : α → Prog τ (α ⊕ γ)}

theorem come (hc : Comes body a t a₁ t₁) (h : Simulates body a₁ t₁ p s Q) :
    Simulates body a t p s Q where
  comes b s' hp := by
    obtain ⟨a', t', hc', hQ⟩ := h.comes b s' hp
    exact ⟨a', t', hc.trans hc', hQ⟩
  ends hend := h.ends (hc.ends_iff.1 hend)

theorem step (hround : Halts (body a) t (.inl a₁) t₁) (h : Simulates body a₁ t₁ p s Q) :
    Simulates body a t p s Q :=
  h.come (.next hround .here)

theorem halted (hp : Halts p s b s') (hQ : Q b s' a t) : Simulates body a t p s Q where
  comes b₁ s₁ h := by
    obtain ⟨rfl, rfl⟩ := hp.unique h
    exact ⟨a, t, .here, hQ⟩
  ends _ := hp.ends

theorem further {R : β → σ → α → τ → Prop} (h : Simulates body a t p s Q)
    (hmore : ∀ b s' a' t', Q b s' a' t' → ∃ a₂ t₂, Comes body a' t' a₂ t₂ ∧ R b s' a₂ t₂) :
    Simulates body a t p s R where
  comes b s' hp := by
    obtain ⟨a', t', hc, hQ⟩ := h.comes b s' hp
    obtain ⟨a₂, t₂, hc₂, hQ'⟩ := hmore b s' a' t' hQ
    exact ⟨a₂, t₂, hc.trans hc₂, hQ'⟩
  ends := h.ends

theorem pure {b : β} {Q : β → σ → α → τ → Prop} (hQ : Q b s a t) :
    Simulates body a t (Pure.pure b : Prog σ β) s Q :=
  halted (.pure b s) hQ

theorem bind {p : Prog σ β} {k : β → Prog σ δ} (h : Simulates body a t p s Q)
    (hk : ∀ b s' a' t', Q b s' a' t' → Simulates body a' t' (k b) s' R) :
    Simulates body a t (p >>= k) s R where
  comes c s₂ hrun := by
    obtain ⟨b, s₁, hp, hrest⟩ := hrun.of_bind
    obtain ⟨a₁, t₁, hc, hQ⟩ := h.comes b s₁ hp
    obtain ⟨a₂, t₂, hc₂, hR⟩ := (hk b s₁ a₁ t₁ hQ).comes c s₂ hrest
    exact ⟨a₂, t₂, hc.trans hc₂, hR⟩
  ends hend := by
    obtain ⟨b, s₁, hp⟩ := h.ends hend
    obtain ⟨a₁, t₁, hc, hQ⟩ := h.comes b s₁ hp
    exact hp.bind_ends ((hk b s₁ a₁ t₁ hQ).ends (hc.ends_iff.1 hend))

theorem round {p : Prog σ β} (hp : ∀ b s', Halts p s b s' →
    ∃ a' t', Halts (body a) t (.inl a') t' ∧ Q b s' a' t') (hends : Ends (body a) t → Ends p s) :
    Simulates body a t p s Q where
  comes b s' h := by
    obtain ⟨a', t', hround, hQ⟩ := hp b s' h
    exact ⟨a', t', .next hround .here, hQ⟩
  ends hend := hends hend.loop_first

/-- What the carried out round of a loop leads to: one more round leads to where the next round
starts, or the result is there. -/
def Back (body : α → Prog τ (α ⊕ γ)) (R : ν → σ → α → τ → Prop) (Q : β → σ → α → τ → Prop) :
    ν ⊕ β → σ → α → τ → Prop
  | .inl v, s, a, t => ∃ a' t', Halts (body a) t (.inl a') t' ∧ R v s a' t'
  | .inr b, s, a, t => Q b s a t

/-- A loop is carried out where each of its rounds is. The round that leads back is what makes the
carrying loop run on where this one does not end. -/
theorem loop {rnd : ν → Prog σ (ν ⊕ β)} (R : ν → σ → α → τ → Prop)
    (h : ∀ v s a t, R v s a t → Simulates body a t (rnd v) s (Back body R Q)) (hR : R v s a t) :
    Simulates body a t (Prog.loop rnd v) s Q where
  comes b s' hrun := by
    suffices hgen : ∀ a t, R v s a t → ∃ a' t', Comes body a t a' t' ∧ Q b s' a' t' from
      hgen a t hR
    refine hrun.loop_rec (fun v s b s' => ∀ a t, R v s a t →
      ∃ a' t', Comes body a t a' t' ∧ Q b s' a' t') ?_ ?_
    · intro v s b s' hround a t hR
      exact (h v s a t hR).comes _ _ hround
    · intro v s v' s₁ b s' hround ih a t hR
      obtain ⟨a₁, t₁, hc, a₂, t₂, hback, hR'⟩ := (h v s a t hR).comes _ _ hround
      obtain ⟨a', t', hc', hQ⟩ := ih a₂ t₂ hR'
      exact ⟨a', t', (hc.snoc hback).trans hc', hQ⟩
  ends hend := by
    obtain ⟨x, t', n, hn⟩ := hend
    have hn' : loopRun body a n t = some (x, t') := hn
    clear hn
    induction n using Nat.strongRecOn generalizing v s a t with
    | ind n ih =>
      obtain ⟨y, s₁, hround⟩ := (h v s a t hR).ends ⟨x, t', n, hn'⟩
      cases y with
      | inr b => exact hround.loop_done.ends
      | inl v' =>
        obtain ⟨a₁, t₁, hc, a₂, t₂, hback, hR'⟩ := (h v s a t hR).comes _ _ hround
        obtain ⟨m, hm, hrun⟩ := hc.fuel hn'
        obtain ⟨k, hk, hrest⟩ := fuel_round hback hrun
        obtain ⟨b, s', hb⟩ := ih k (Nat.lt_of_lt_of_le hk hm) hR' hrest
        exact (hround.loop_next hb).ends

/-- A carried out program and its loop end alike, where each round that `Q` leads to is the
last. -/
theorem halts {P : β → σ → γ → τ → Prop} (h : Simulates body a t p s Q)
    (hdone : ∀ b s' a' t', Q b s' a' t' → ∃ c u, Halts (body a') t' (.inr c) u ∧ P b s' c u) :
    (∀ b s', Halts p s b s' → ∃ c u, Halts (Prog.loop body a) t c u ∧ P b s' c u) ∧
      ∀ c u, Halts (Prog.loop body a) t c u → ∃ b s', Halts p s b s' ∧ P b s' c u := by
  have hfwd : ∀ b s', Halts p s b s' →
      ∃ c u, Halts (Prog.loop body a) t c u ∧ P b s' c u := by
    intro b s' hp
    obtain ⟨a', t', hc, hQ⟩ := h.comes b s' hp
    obtain ⟨c, u, hlast, hP⟩ := hdone b s' a' t' hQ
    exact ⟨c, u, hc.halts_iff.2 hlast.loop_done, hP⟩
  refine ⟨hfwd, fun c u hloop => ?_⟩
  obtain ⟨b, s', hp⟩ := h.ends hloop.ends
  obtain ⟨c', u', hloop', hP⟩ := hfwd b s' hp
  obtain ⟨rfl, rfl⟩ := hloop.unique hloop'
  exact ⟨b, s', hp, hP⟩

end Simulates
end Prog
end Program
