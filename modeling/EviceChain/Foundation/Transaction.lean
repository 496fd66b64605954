import Mathlib

/-!
# Transactions: calls that take effect or leave no trace

`transact call` runs a partial `call` on a state and appends the events it emits
to a log. A call that fails changes neither. `ledger call s xs` is the state and
the log after the calls `xs`.

`ledger_step` is what one more call does, for inductions over the calls made.
`log_prefix` says that the log only grows, and `transact_of_errors` that calls
which would all fail leave everything as it is.

A specification gives every call a meaning, if only that nothing happens.
`Simulates.ledger` is the rule for proving one of a ledger: compare one call.
-/

namespace Foundation

variable {σ ι ε ω : Type} (call : σ → ι → Except ε (σ × List ω))

def transact (s : σ × List ω) (x : ι) : σ × List ω :=
  match call s.1 x with
  | .ok (s', events) => (s', s.2 ++ events)
  | .error _ => s

def ledger (s : σ) (xs : List ι) : σ × List ω := xs.foldl (transact call) (s, [])

variable {call}

theorem ledger_step (s : σ) (xs : List ι) (x : ι) :
    (∃ e, call (ledger call s xs).1 x = .error e ∧
      ledger call s (xs ++ [x]) = ledger call s xs) ∨
    ∃ s' events, call (ledger call s xs).1 x = .ok (s', events) ∧
      ledger call s (xs ++ [x]) = (s', (ledger call s xs).2 ++ events) := by
  have hsnoc : ledger call s (xs ++ [x]) = transact call (ledger call s xs) x :=
    List.foldl_append
  rw [hsnoc, transact]
  cases hcall : call (ledger call s xs).1 x with
  | error e => exact .inl ⟨e, rfl, rfl⟩
  | ok result => exact .inr ⟨result.1, result.2, rfl, rfl⟩

theorem log_prefix {s : σ} {before xs : List ι} (h : before <+: xs) :
    (ledger call s before).2 <+: (ledger call s xs).2 := by
  obtain ⟨after, rfl⟩ := h
  induction after using List.reverseRecOn with
  | nil => rw [List.append_nil]
  | append_singleton after x ih =>
    rw [← List.append_assoc]
    rcases ledger_step s (before ++ after) x with ⟨e, -, hstep⟩ | ⟨s', events, -, hstep⟩
    · rwa [hstep]
    · rw [hstep]
      exact ih.trans (List.prefix_append _ _)

theorem transact_of_errors {s : σ × List ω} {xs : List ι}
    (h : ∀ x ∈ xs, ∃ e, call s.1 x = .error e) : xs.foldl (transact call) s = s := by
  induction xs with
  | nil => rfl
  | cons x xs ih =>
    obtain ⟨⟨e, he⟩, hrest⟩ := List.forall_mem_cons.mp h
    have hfirst : transact call s x = s := by
      unfold transact
      rw [he]
    rw [List.foldl_cons, hfirst]
    exact ih hrest

/-! ## Ledgers and their specifications -/

section Specification

variable {τ κ : Type}

/-- The state and the log that the specification `spec` gives the calls `xs`. -/
def chronicle (spec : τ → ι → τ × List κ) (t : τ) (xs : List ι) : τ × List κ :=
  xs.foldl (fun s x => ((spec s.1 x).1, s.2 ++ (spec s.1 x).2)) (t, [])

theorem chronicle_snoc (spec : τ → ι → τ × List κ) (t : τ) (xs : List ι) (x : ι) :
    chronicle spec t (xs ++ [x]) =
      ((spec (chronicle spec t xs).1 x).1,
        (chronicle spec t xs).2 ++ (spec (chronicle spec t xs).1 x).2) :=
  List.foldl_append

/-- A call that takes effect does what `spec` says of it, as far as `abs` and `observe`
show, and of a call that fails `spec` says that nothing happens. -/
structure Simulates (call : σ → ι → Except ε (σ × List ω)) (spec : τ → ι → τ × List κ)
    (abs : σ → τ) (observe : ω → Option κ) : Prop where
  ok : ∀ {s x s' events}, call s x = .ok (s', events) →
    spec (abs s) x = (abs s', events.filterMap observe)
  error : ∀ {s x e}, call s x = .error e → spec (abs s) x = (abs s, [])

theorem Simulates.ledger {spec : τ → ι → τ × List κ} {abs : σ → τ} {observe : ω → Option κ}
    (h : Simulates call spec abs observe) (s : σ) (xs : List ι) :
    chronicle spec (abs s) xs =
      (abs (Foundation.ledger call s xs).1, (Foundation.ledger call s xs).2.filterMap observe) := by
  induction xs using List.reverseRecOn with
  | nil => rfl
  | append_singleton xs x ih =>
    rw [chronicle_snoc, ih]
    rcases ledger_step s xs x with ⟨e, hcall, hstep⟩ | ⟨s', events, hcall, hstep⟩
    · rw [hstep, h.error hcall, List.append_nil]
    · rw [hstep, h.ok hcall, List.filterMap_append]

end Specification

end Foundation
