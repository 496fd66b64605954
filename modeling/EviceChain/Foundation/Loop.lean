import Mathlib

/-!
# Loops that break, continue or fail, and runs over inputs

`iterate oof body fuel s` runs a loop body from the state `s`: the body yields
the state of the next iteration, leaves the loop, or fails. A loop still
running when the fuel is used up fails with `oof`.

`iterate_total` is the rule for such loops: with an invariant, and a variant
that every continued iteration decreases, the loop leaves with its
postcondition for any fuel above the variant. `Continues` counts iterations
without fuel, and `Continues.bounded` bounds their number by the variant.
`iterate_keeps` is the rule for a
loop already known to come to its end. `foldlM_run` is the rule for a
partial step function folded over a list: the invariant may speak of the inputs
consumed so far, and the ways to fail are named. Where it is known that the fold
has come to its end, `foldlM_ok` and `foldlM_keeps` will do. `mapM_ok` is for a
step that always succeeds.
-/

namespace Foundation

variable {ε σ : Type}

def iterate (oof : ε) (body : σ → Except ε (ForInStep σ)) : Nat → σ → Except ε σ
  | 0, _ => .error oof
  | fuel + 1, s =>
    match body s with
    | .error e => .error e
    | .ok (.done s') => .ok s'
    | .ok (.yield s') => iterate oof body fuel s'

variable {body : σ → Except ε (ForInStep σ)}

/-- One iteration of a loop with invariant `I`, variant `μ` and postcondition
`Q` on leaving: no failure, and a continued iteration decreases the variant. -/
def StepOk (body : σ → Except ε (ForInStep σ)) (I Q : σ → Prop) (μ : σ → Nat) (s : σ) : Prop :=
  (∃ s', body s = .ok (.yield s') ∧ I s' ∧ μ s' < μ s) ∨ ∃ s', body s = .ok (.done s') ∧ Q s'

theorem iterate_total (oof : ε) {I Q : σ → Prop} (μ : σ → Nat)
    (hstep : ∀ s, I s → StepOk body I Q μ s) {fuel : Nat} {s : σ}
    (hs : I s) (hfuel : μ s < fuel) : ∃ s', iterate oof body fuel s = .ok s' ∧ Q s' := by
  induction fuel generalizing s with
  | zero => exact absurd hfuel (Nat.not_lt_zero _)
  | succ fuel ih =>
    rcases hstep s hs with ⟨s', hbody, hs', hlt⟩ | ⟨s', hbody, hq⟩
    · obtain ⟨t, ht, hq⟩ := ih hs' (by omega)
      exact ⟨t, by simp only [iterate, hbody, ht], hq⟩
    · exact ⟨s', by simp only [iterate, hbody], hq⟩

/-- `Continues body s n t`: from the state `s`, `n` iterations go on one after the
other and lead to `t`. -/
inductive Continues (body : σ → Except ε (ForInStep σ)) (s : σ) : Nat → σ → Prop
  | start : Continues body s 0 s
  | next {n : Nat} {t u : σ} :
      Continues body s n t → body t = .ok (.yield u) → Continues body s (n + 1) u

theorem Continues.bounded {I Q : σ → Prop} {μ : σ → Nat}
    (hstep : ∀ s, I s → StepOk body I Q μ s) {s t : σ} {n : Nat} (hs : I s)
    (h : Continues body s n t) : I t ∧ n + μ t ≤ μ s := by
  induction h with
  | start => exact ⟨hs, Nat.le_of_eq (Nat.zero_add _)⟩
  | next _ hbody ih =>
    obtain ⟨hI, hle⟩ := ih
    rcases hstep _ hI with ⟨u, hyield, hu, hlt⟩ | ⟨u, hdone, -⟩
    · rw [hbody] at hyield
      cases hyield
      exact ⟨hu, by omega⟩
    · rw [hbody] at hdone
      cases hdone

/-- A loop that has come to its end has kept what every iteration keeps. -/
theorem iterate_keeps {oof : ε} {I : σ → Prop}
    (hstep : ∀ s r, I s → body s = .ok r → I r.value) {fuel : Nat} {s t : σ} (hs : I s)
    (h : iterate oof body fuel s = .ok t) : I t := by
  induction fuel generalizing s with
  | zero => cases h
  | succ fuel ih =>
    unfold iterate at h
    cases hbody : body s with
    | error e =>
      rw [hbody] at h
      cases h
    | ok r =>
      have hr := hstep s r hs hbody
      rw [hbody] at h
      cases r with
      | done s' =>
        cases h
        exact hr
      | yield s' => exact ih hr h

theorem bind_eq_ok {α β : Type} {x : Except ε α} {f : α → Except ε β} {b : β} :
    x >>= f = .ok b ↔ ∃ a, x = .ok a ∧ f a = .ok b := by
  cases x with
  | error e => simp [bind, Except.bind]
  | ok a => simp [bind, Except.bind]

theorem map_eq_ok {α β : Type} {x : Except ε α} {f : α → β} {b : β} :
    f <$> x = .ok b ↔ ∃ a, x = .ok a ∧ f a = b := by
  cases x with
  | error e => simp [Functor.map, Except.map]
  | ok a => simp [Functor.map, Except.map]

theorem toOption_map_eq_some {α β : Type} {x : Except ε α} {f : α → β} {b : β} :
    x.toOption.map f = some b ↔ ∃ a, x = .ok a ∧ f a = b := by
  cases x with
  | error e => simp [Except.toOption]
  | ok a => simp [Except.toOption]

theorem mapM_ok {α β : Type} {f : α → Except ε β} {g : α → β} {xs : List α}
    (h : ∀ x ∈ xs, f x = .ok (g x)) : xs.mapM f = .ok (xs.map g) := by
  induction xs with
  | nil => rfl
  | cons x xs ih =>
    have hrest := ih fun y hy => h y (List.mem_cons_of_mem _ hy)
    rw [List.mapM_cons, h x List.mem_cons_self, hrest]
    rfl

theorem foldlM_run {ι : Type} {step : σ → ι → Except ε σ} {I : List ι → σ → Prop} {E : ε → Prop}
    (hstep : ∀ done s x, I done s →
      (∃ s', step s x = .ok s' ∧ I (done ++ [x]) s') ∨ ∃ e, step s x = .error e ∧ E e)
    {s : σ} (hs : I [] s) (xs : List ι) :
    (∃ s', xs.foldlM step s = .ok s' ∧ I xs s') ∨ ∃ e, xs.foldlM step s = .error e ∧ E e := by
  -- generalised over the inputs already consumed
  suffices ∀ done s, I done s →
      (∃ s', xs.foldlM step s = .ok s' ∧ I (done ++ xs) s') ∨
        ∃ e, xs.foldlM step s = .error e ∧ E e from this [] s hs
  induction xs with
  | nil => exact fun done s hs => .inl ⟨s, rfl, by rwa [List.append_nil]⟩
  | cons x xs ih =>
    intro done s hs
    rcases hstep done s x hs with ⟨s', hx, hs'⟩ | ⟨e, hx, he⟩
    · rw [List.foldlM_cons, hx, List.append_cons]
      exact ih _ s' hs'
    · rw [List.foldlM_cons, hx]
      exact .inr ⟨e, rfl, he⟩

theorem foldlM_ok {ι : Type} {step : σ → ι → Except ε σ} {I : List ι → σ → Prop}
    (hstep : ∀ done s x s', I done s → step s x = .ok s' → I (done ++ [x]) s')
    {s s' : σ} (hs : I [] s) {xs : List ι} (h : xs.foldlM step s = .ok s') : I xs s' := by
  have hany : ∀ done s x, I done s →
      (∃ s', step s x = .ok s' ∧ I (done ++ [x]) s') ∨ ∃ e, step s x = .error e ∧ True := by
    intro done s x hI
    cases hx : step s x with
    | ok s' => exact .inl ⟨s', rfl, hstep done s x s' hI hx⟩
    | error e => exact .inr ⟨e, rfl, trivial⟩
  rcases foldlM_run hany hs xs with ⟨s'', hrun, hI⟩ | ⟨e, hrun, -⟩
  · rw [h] at hrun
    cases hrun
    exact hI
  · rw [h] at hrun
    cases hrun

theorem foldlM_keeps {ι : Type} {step : σ → ι → Option σ} {I : σ → Prop}
    (hstep : ∀ s x s', I s → step s x = some s' → I s') {s s' : σ} (hs : I s) {xs : List ι}
    (h : xs.foldlM step s = some s') : I s' := by
  induction xs generalizing s with
  | nil =>
    cases h
    exact hs
  | cons x xs ih =>
    rw [List.foldlM_cons] at h
    obtain ⟨t, hx, hrest⟩ := Option.bind_eq_some_iff.mp h
    exact ih (hstep s x t hs hx) hrest

end Foundation
