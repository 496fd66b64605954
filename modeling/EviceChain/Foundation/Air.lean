import Mathlib

/-!
# Algebraic intermediate representations

A trace is a table of field elements with at least one row. An `AirBuilder` is
what the constraints of a row are asserted on: the row and the next one, where
the last row is followed by the first, and the selector of transitions. An
assertion is multiplied by the condition it is made under. A trace satisfies a
circuit if every assertion made on every row is zero.

The selector is a parameter: all that is known of it is that it vanishes on the
last row and nowhere else (`Selector.zero_iff`), as the indicator of the other
rows and the polynomial that a prover uses both do.

Results:
1. `forall_transition`: what is asserted on transitions holds from each row to
   the next, and says nothing of the last row;
2. `sum_Iio_succ`, `eq_add_sum_Iio`: a column that changes from row to row by known
   amounts is its first entry and the sum of the amounts so far.
-/

namespace Foundation

structure AirBuilder (F : Type) (width : Nat) where
  current : Fin width → F
  next : Fin width → F
  isTransition : F
  condition : F
  constraints : List F

namespace AirBuilder

variable {F : Type} [CommRing F] {width : Nat}

def whenTransition (builder : AirBuilder F width) : AirBuilder F width :=
  { builder with condition := builder.condition * builder.isTransition }

def assertZero (builder : AirBuilder F width) (x : F) : AirBuilder F width :=
  { builder with constraints := builder.constraints ++ [builder.condition * x] }

def assertEq (builder : AirBuilder F width) (x y : F) : AirBuilder F width :=
  builder.assertZero (x - y)

end AirBuilder

/-- A trace of `n + 1` rows. -/
abbrev Trace (F : Type) (width n : Nat) := Fin (n + 1) → Fin width → F

/-- The selector of the rows from which there is a transition. -/
structure Selector (F : Type) [Zero F] (n : Nat) where
  isTransition : Fin (n + 1) → F
  zero_iff : ∀ i, isTransition i = 0 ↔ i = Fin.last n

section Satisfies

variable {F : Type} [Field F] {width n : Nat}

/-- `1` on the rows that have a next one. -/
def Selector.indicator (F : Type) [Field F] (n : Nat) : Selector F n where
  isTransition i := if i = Fin.last n then 0 else 1
  zero_iff i := by
    split
    · next h => exact ⟨fun _ => h, fun _ => rfl⟩
    · next h => exact ⟨fun h' => (one_ne_zero h').elim, fun h' => (h h').elim⟩

/-- What the constraints of row `i` are asserted on. -/
def Trace.builder (trace : Trace F width n) (sel : Selector F n) (i : Fin (n + 1)) :
    AirBuilder F width where
  current := trace i
  next := trace (i + 1)
  isTransition := sel.isTransition i
  condition := 1
  constraints := []

def Satisfies (eval : AirBuilder F width → AirBuilder F width) (sel : Selector F n)
    (trace : Trace F width n) : Prop :=
  ∀ i, ∀ constraint ∈ (eval (trace.builder sel i)).constraints, constraint = 0

theorem forall_transition (sel : Selector F n) {x : Fin (n + 1) → Fin (n + 1) → F} :
    (∀ i, sel.isTransition i * x i (i + 1) = 0) ↔ ∀ j : Fin n, x j.castSucc j.succ = 0 := by
  constructor
  · intro h j
    have hsel : sel.isTransition j.castSucc ≠ 0 :=
      fun hzero => Fin.castSucc_ne_last j ((sel.zero_iff _).mp hzero)
    have hx := (mul_eq_zero.mp (h j.castSucc)).resolve_left hsel
    rwa [Fin.coeSucc_eq_succ] at hx
  · intro h i
    cases i using Fin.lastCases with
    | last => rw [(sel.zero_iff _).mpr rfl, zero_mul]
    | cast j => rw [Fin.coeSucc_eq_succ, h j, mul_zero]

end Satisfies

section Sums

variable {M : Type} [AddCommMonoid M] {n : Nat}

theorem sum_Iio_succ (d : Fin (n + 1) → M) (j : Fin n) :
    ∑ i ∈ Finset.Iio j.succ, d i = ∑ i ∈ Finset.Iio j.castSucc, d i + d j.castSucc := by
  have hsucc : Finset.Iio j.succ = insert j.castSucc (Finset.Iio j.castSucc) := by
    rw [Finset.Iio_insert]
    ext i
    simp [Fin.lt_def, Fin.le_def]
  rw [hsucc, Finset.sum_insert fun hmem => lt_irrefl _ (Finset.mem_Iio.mp hmem), add_comm]

theorem eq_add_sum_Iio {x d : Fin (n + 1) → M}
    (h : ∀ j : Fin n, x j.succ = x j.castSucc + d j.castSucc) (k : Fin (n + 1)) :
    x k = x 0 + ∑ j ∈ Finset.Iio k, d j := by
  induction k using Fin.induction with
  | zero =>
    have hnone : Finset.Iio (0 : Fin (n + 1)) = ∅ := Finset.Iio_bot
    rw [hnone, Finset.sum_empty, add_zero]
  | succ j ih => rw [h, ih, sum_Iio_succ, add_assoc]

end Sums

end Foundation
