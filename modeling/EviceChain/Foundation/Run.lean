import EviceChain.Foundation.Loop

/-!
# Runs of a partial step function

`Run step ok s t`: the state `t` is reached from `s` by steps that satisfy `ok`,
where `step` says which steps are possible and what they lead to. `Run.invariant`
is the induction over a run. `exists_run` reads a run off a list of steps that can
be played.

A `Schedule` is a run that never ends. `exists_schedule` makes one from steps that can be
played and a step that can be taken ever again after them.
-/

namespace Foundation

variable {σ α : Type}

inductive Run (step : σ → α → Option σ) (ok : σ → α → Prop) (s : σ) : σ → Prop
  | refl : Run step ok s s
  | tail {t u : σ} {a : α} : Run step ok s t → ok t a → step t a = some u → Run step ok s u

/-- Takes one step after the other, and gives up at one that does not satisfy `ok`. -/
def play (step : σ → α → Option σ) (ok : σ → α → Prop) [∀ s a, Decidable (ok s a)] (s : σ)
    (as : List α) : Option σ :=
  as.foldlM (fun s a => if ok s a then step s a else none) s

section

variable {step : σ → α → Option σ} {ok : σ → α → Prop} {s t : σ}

/-- That the state before the step is reached makes the invariants already known
available. -/
theorem Run.invariant {I : σ → Prop} (h : Run step ok s t) (hstart : I s)
    (hstep : ∀ {t u a}, Run step ok s t → ok t a → step t a = some u → I t → I u) : I t := by
  induction h with
  | refl => exact hstart
  | tail hrun hok hnext ih => exact hstep hrun hok hnext ih

theorem Run.trans {u : σ} (h : Run step ok s t) (h' : Run step ok t u) : Run step ok s u :=
  h'.invariant h fun _ hok hnext hrun => hrun.tail hok hnext

variable [∀ s a, Decidable (ok s a)]

theorem run_of_play (as : List α) (h : play step ok s as = some t) : Run step ok s t := by
  refine foldlM_keeps (I := Run step ok s) (fun _ a _ hrun hnext => ?_) .refl h
  split at hnext
  · next hok => exact hrun.tail hok hnext
  · cases hnext

/-- Steps that can be played to a state with the property `P`. -/
theorem exists_run {P : σ → Prop} [DecidablePred P] (as : List α)
    (h : (play step ok s as).any (fun t => decide (P t)) = true) :
    ∃ t, Run step ok s t ∧ P t := by
  obtain ⟨t, hplay, hP⟩ := (Option.any_eq_true _ _).mp h
  exact ⟨t, run_of_play as hplay, of_decide_eq_true hP⟩

end

/-! ## Runs that never end -/

structure Schedule (step : σ → α → Option σ) (s : σ) where
  state : ℕ → σ
  move : ℕ → α
  start : state 0 = s
  next : ∀ k, step (state k) (move k) = some (state (k + 1))

namespace Schedule

variable {step : σ → α → Option σ} {s t : σ}

theorem run (ρ : Schedule step s) (k : ℕ) : Run step (fun _ _ => True) s (ρ.state k) := by
  induction k with
  | zero =>
    rw [ρ.start]
    exact .refl
  | succ k ih => exact ih.tail trivial (ρ.next k)

def cons {a : α} (h : step s a = some t) (ρ : Schedule step t) : Schedule step s where
  state
    | 0 => s
    | k + 1 => ρ.state k
  move
    | 0 => a
    | k + 1 => ρ.move k
  start := rfl
  next
    | 0 => h.trans (congrArg some ρ.start.symm)
    | k + 1 => ρ.next k

/-- One step again and again. -/
theorem exists_idle {idle : α} {Rests : σ → Prop}
    (hidle : ∀ u, Rests u → ∃ u', step u idle = some u' ∧ Rests u') (hs : Rests s) :
    ∃ ρ : Schedule step s, ∀ k, Rests (ρ.state k) := by
  choose next hnext using fun u : { u // Rests u } => hidle u.1 u.2
  let states (k : ℕ) : { u // Rests u } :=
    (fun u => ⟨next u, (hnext u).2⟩)^[k] ⟨s, hs⟩
  refine ⟨⟨fun k => states k, fun _ => idle, rfl, fun k => ?_⟩, fun k => (states k).2⟩
  rw [(hnext (states k)).1]
  exact congrArg (fun u : { u // Rests u } => some u.1)
    (Function.iterate_succ_apply' (fun u => ⟨next u, (hnext u).2⟩) k ⟨s, hs⟩).symm

end Schedule

/-- Steps that can be played to a state where one step is always possible. -/
theorem exists_schedule {step : σ → α → Option σ} {ok : σ → α → Prop}
    [∀ s a, Decidable (ok s a)] {idle : α} {Rests : σ → Prop} [DecidablePred Rests]
    (hidle : ∀ u, Rests u → ∃ u', step u idle = some u' ∧ Rests u') {s : σ} (as : List α)
    (h : (play step ok s as).any (fun t => decide (Rests t)) = true) :
    ∃ ρ : Schedule step s, (∀ k, ok (ρ.state k) (ρ.move k) ∨ Rests (ρ.state k)) ∧
      ∃ K, ∀ k ≥ K, Rests (ρ.state k) := by
  obtain ⟨t, hplay, hrests⟩ := (Option.any_eq_true _ _).mp h
  have hrests := of_decide_eq_true hrests
  clear h
  induction as generalizing s with
  | nil =>
    cases hplay
    obtain ⟨ρ, hρ⟩ := Schedule.exists_idle hidle hrests
    exact ⟨ρ, fun k => .inr (hρ k), 0, fun k _ => hρ k⟩
  | cons a as ih =>
    rw [play, List.foldlM_cons] at hplay
    obtain ⟨u, hu, hplay⟩ := Option.bind_eq_some_iff.mp hplay
    split at hu
    · next hok =>
      obtain ⟨ρ, hρ, K, hK⟩ := ih hplay
      refine ⟨ρ.cons hu, fun k => ?_, K + 1, fun k hk => ?_⟩
      · cases k with
        | zero => exact .inl hok
        | succ k => exact hρ k
      · cases k with
        | zero => exact (Nat.not_succ_le_zero K hk).elim
        | succ k => exact hK k (Nat.le_of_succ_le_succ hk)
    · cases hu

end Foundation
