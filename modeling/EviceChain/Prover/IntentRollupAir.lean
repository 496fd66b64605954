import EviceChain.Foundation.Air

/-!
# The circuit of the prover (`zkapp/zk-prover/src/lib.rs`)

Each row of the trace is an intent: what the user pays, the least they accept,
what the solver delivers, and both balances before it. `eval` asserts two
equations between a row and the next, modulo the order of the field. The
comparison that its first comment asks for is not asserted.

Results:
1. `satisfies_iff`: the traces that `eval` accepts, as equations between rows;
2. `value_conserved`: the sum of the balances is the same on every row, and the
   balance of the user is what the rows before make of the first;
3. `slippage_iff`: the circuit holds the solver to every minimum a user can ask for
   if and only if no larger output exists, because it never reads the minimum;
   `slippage_accepted` is a trace that delivers less;
4. `no_wrap_iff`: over the field of the verifier the equations hold for the integers
   if and only if no balance is overdrawn; `overdraft_accepted` is a user who pays
   with nothing and ends up with the largest balance there is.
-/

namespace EviceChain.Prover

open Foundation

structure IntentRollupCols (T : Type) where
  intentId : T
  userInputAmount : T
  userMinOutput : T
  solverActualOutput : T
  userBalance : T
  solverBalance : T

/-- `IntentRollupAir::width`. -/
abbrev IntentRollupAir.width : Nat := 6

abbrev Row (F : Type) := Fin IntentRollupAir.width → F

/-- The columns of a row, in the order of the fields. -/
def cols {F : Type} (row : Row F) : IntentRollupCols F where
  intentId := row 0
  userInputAmount := row 1
  userMinOutput := row 2
  solverActualOutput := row 3
  userBalance := row 4
  solverBalance := row 5

def IntentRollupAir.eval {F : Type} [CommRing F] (builder : AirBuilder F width) :
    AirBuilder F width :=
  let row := builder.current
  let next := builder.next
  let transition := builder.whenTransition
  let userInput := row 1
  let actualOutput := row 3
  let userBal := row 4
  let solverBal := row 5
  let nextUserBal := next 4
  let nextSolverBal := next 5
  let transition := transition.assertEq (nextUserBal + userInput) (userBal + actualOutput)
  transition.assertEq (nextSolverBal + actualOutput) (solverBal + userInput)

/-- Settling the intent of a row leads to the balances of the next. -/
structure Settles {F : Type} [Add F] (row next : Row F) : Prop where
  user : (cols next).userBalance + (cols row).userInputAmount =
    (cols row).userBalance + (cols row).solverActualOutput
  solver : (cols next).solverBalance + (cols row).solverActualOutput =
    (cols row).solverBalance + (cols row).userInputAmount

section Field

variable {F : Type} [Field F] {n : Nat} {sel : Selector F n}
  {trace : Trace F IntentRollupAir.width n}

/-- A trace is accepted if each row settles into the next. -/
theorem satisfies_iff :
    Satisfies IntentRollupAir.eval sel trace ↔
      ∀ j : Fin n, Settles (trace j.castSucc) (trace j.succ) := by
  have hconstraints : ∀ i, (IntentRollupAir.eval (trace.builder sel i)).constraints =
      [1 * sel.isTransition i * ((trace (i + 1) 4 + trace i 1) - (trace i 4 + trace i 3)),
        1 * sel.isTransition i * ((trace (i + 1) 5 + trace i 3) - (trace i 5 + trace i 1))] :=
    fun i => rfl
  unfold Satisfies
  simp only [hconstraints, List.forall_mem_cons, List.not_mem_nil, IsEmpty.forall_iff,
    implies_true, and_true, one_mul, forall_and]
  rw [forall_transition sel (x := fun i k => (trace k 4 + trace i 1) - (trace i 4 + trace i 3)),
    forall_transition sel (x := fun i k => (trace k 5 + trace i 3) - (trace i 5 + trace i 1)),
    ← forall_and]
  simp only [sub_eq_zero]
  exact forall_congr' fun j => ⟨fun h => ⟨h.1, h.2⟩, fun h => ⟨h.user, h.solver⟩⟩

end Field

/-! ## The field of the verifier -/

/-- `PRIME_FIELD` of `EviceVerifier.sol`. -/
def primeField : Nat := 0xFFFFFFFF00000001

namespace PrimeFieldLemmas

/-- `7` generates the units: its order is `2 ^ 32 * 3 * 5 * 17 * 257 * 65537`. -/
theorem primeField_prime : Nat.Prime primeField := by
  unfold primeField
  refine lucas_primality _ (7 : ZMod 18446744069414584321) ?_ fun q hq hdvd => ?_
  · norm_num only
    reduce_mod_char
  · have hfactors : 18446744069414584321 - 1 = 2 ^ 32 * (3 * (5 * (17 * (257 * 65537)))) := by
      norm_num
    rw [hfactors, hq.dvd_mul, hq.dvd_mul, hq.dvd_mul, hq.dvd_mul, hq.dvd_mul] at hdvd
    have heq : ∀ {r}, Nat.Prime r → q ∣ r → q = r :=
      fun hr => (Nat.prime_dvd_prime_iff_eq hq hr).mp
    rcases hdvd with h | h | h | h | h | h
    · rw [heq Nat.prime_two (hq.dvd_of_dvd_pow h)]
      norm_num only
      reduce_mod_char
      decide
    all_goals
      rw [heq (by norm_num) h]
      norm_num only
      reduce_mod_char
      decide

end PrimeFieldLemmas

instance primeField.fact : Fact primeField.Prime := ⟨PrimeFieldLemmas.primeField_prime⟩

/-- A row from its columns. -/
def IntentRollupCols.row {F : Type} (c : IntentRollupCols F) : Row F :=
  ![c.intentId, c.userInputAmount, c.userMinOutput, c.solverActualOutput, c.userBalance,
    c.solverBalance]

/-- A user who asks for 100 pays 10 and is delivered 1. -/
def shortDelivery : Trace (ZMod primeField) IntentRollupAir.width 1 :=
  ![IntentRollupCols.row ⟨1, 10, 100, 1, 50, 20⟩, IntentRollupCols.row ⟨2, 0, 0, 0, 41, 29⟩]

theorem shortDelivery_satisfies :
    Satisfies IntentRollupAir.eval (.indicator _ 1) shortDelivery := by
  refine satisfies_iff.mpr fun j => ?_
  obtain rfl : j = 0 := Subsingleton.elim _ _
  exact ⟨by decide, by decide⟩

/-! ## Conservation -/

section Conservation

variable {F : Type} [Field F] {n : Nat} {sel : Selector F n}
  {trace : Trace F IntentRollupAir.width n}

/-- The balances on row `k` are the first ones and what the rows before `k` add to them. -/
theorem balances (h : Satisfies IntentRollupAir.eval sel trace) (k : Fin (n + 1)) :
    (cols (trace k)).userBalance = (cols (trace 0)).userBalance +
        ∑ j ∈ Finset.Iio k,
          ((cols (trace j)).solverActualOutput - (cols (trace j)).userInputAmount) ∧
      (cols (trace k)).solverBalance = (cols (trace 0)).solverBalance +
        ∑ j ∈ Finset.Iio k,
          ((cols (trace j)).userInputAmount - (cols (trace j)).solverActualOutput) := by
  have hsettles := satisfies_iff.mp h
  have huser : ∀ j : Fin n, (cols (trace j.succ)).userBalance =
      (cols (trace j.castSucc)).userBalance + ((cols (trace j.castSucc)).solverActualOutput -
        (cols (trace j.castSucc)).userInputAmount) := by
    intro j
    linear_combination (hsettles j).user
  have hsolver : ∀ j : Fin n, (cols (trace j.succ)).solverBalance =
      (cols (trace j.castSucc)).solverBalance + ((cols (trace j.castSucc)).userInputAmount -
        (cols (trace j.castSucc)).solverActualOutput) := by
    intro j
    linear_combination (hsettles j).solver
  exact ⟨eq_add_sum_Iio (x := fun i => (cols (trace i)).userBalance)
      (d := fun i => (cols (trace i)).solverActualOutput - (cols (trace i)).userInputAmount)
      huser k,
    eq_add_sum_Iio (x := fun i => (cols (trace i)).solverBalance)
      (d := fun i => (cols (trace i)).userInputAmount - (cols (trace i)).solverActualOutput)
      hsolver k⟩

/-- The sum of the balances is the same on every row, and the balance of the user on row
`k` is the first one and what the rows before `k` add to it. -/
theorem value_conserved (h : Satisfies IntentRollupAir.eval sel trace) (k : Fin (n + 1)) :
    (cols (trace k)).userBalance + (cols (trace k)).solverBalance =
        (cols (trace 0)).userBalance + (cols (trace 0)).solverBalance ∧
      (cols (trace k)).userBalance = (cols (trace 0)).userBalance +
        ∑ j ∈ Finset.Iio k,
          ((cols (trace j)).solverActualOutput - (cols (trace j)).userInputAmount) := by
  obtain ⟨huser, hsolver⟩ := balances h k
  refine ⟨?_, huser⟩
  rw [huser, hsolver, Finset.sum_sub_distrib, Finset.sum_sub_distrib]
  ring

end Conservation

theorem value_conserved_shortDelivery :
    Satisfies IntentRollupAir.eval (.indicator _ 1) shortDelivery ∧
      (cols (shortDelivery 1)).userBalance + (cols (shortDelivery 1)).solverBalance = 50 + 20 :=
  ⟨shortDelivery_satisfies, (value_conserved shortDelivery_satisfies 1).1⟩

/-! ## Slippage -/

/-- The same trace with other minimum outputs. -/
def withMinOutput {F : Type} {n : Nat} (trace : Trace F IntentRollupAir.width n)
    (minOutput : Fin (n + 1) → F) : Trace F IntentRollupAir.width n :=
  fun i => Function.update (trace i) 2 (minOutput i)

section Slippage

variable {p : Nat} [Fact p.Prime] {n : Nat} {sel : Selector (ZMod p) n}
  {trace : Trace (ZMod p) IntentRollupAir.width n}

/-- The circuit enforces every minimum that can be put into the trace if and only if the
output of every row but the last is the largest element of the field. -/
theorem slippage_iff (h : Satisfies IntentRollupAir.eval sel trace) :
    (∀ minOutput, Satisfies IntentRollupAir.eval sel (withMinOutput trace minOutput) →
      ∀ i, i ≠ Fin.last n →
        (cols (withMinOutput trace minOutput i)).userMinOutput.val ≤
          (cols (withMinOutput trace minOutput i)).solverActualOutput.val) ↔
    ∀ i, i ≠ Fin.last n → (cols (trace i)).solverActualOutput.val + 1 = p := by
  constructor
  · intro hslippage i hi
    -- ask for the largest element: `eval` does not read the minimum
    have hmin : Satisfies IntentRollupAir.eval sel
        (withMinOutput trace fun _ => ((p - 1 : ℕ) : ZMod p)) :=
      satisfies_iff.mpr fun j => ⟨(satisfies_iff.mp h j).user, (satisfies_iff.mp h j).solver⟩
    have hle : ((p - 1 : ℕ) : ZMod p).val ≤ (cols (trace i)).solverActualOutput.val :=
      hslippage _ hmin i hi
    have hpos : 0 < p := (Fact.out : p.Prime).pos
    have hlt : (cols (trace i)).solverActualOutput.val < p := ZMod.val_lt _
    rw [ZMod.val_natCast_of_lt (Nat.sub_lt hpos Nat.one_pos)] at hle
    omega
  · intro hlargest minOutput _ i hi
    have hval : (cols (withMinOutput trace minOutput i)).solverActualOutput.val + 1 = p :=
      hlargest i hi
    refine Nat.le_of_lt_succ ?_
    rw [Nat.succ_eq_add_one, hval]
    exact ZMod.val_lt _

end Slippage

/-- A user who is delivered the largest element of the field. -/
def fullDelivery : Trace (ZMod primeField) IntentRollupAir.width 1 :=
  ![IntentRollupCols.row ⟨1, 0, 5, -1, 1, 0⟩, IntentRollupCols.row ⟨2, 0, 0, 0, 0, 1⟩]

theorem slippage_fullDelivery :
    Satisfies IntentRollupAir.eval (.indicator _ 1) fullDelivery ∧
      ∀ minOutput, Satisfies IntentRollupAir.eval (.indicator _ 1)
          (withMinOutput fullDelivery minOutput) →
        ∀ i, i ≠ Fin.last 1 →
          (cols (withMinOutput fullDelivery minOutput i)).userMinOutput.val ≤
            (cols (withMinOutput fullDelivery minOutput i)).solverActualOutput.val := by
  have h : Satisfies IntentRollupAir.eval (.indicator _ 1) fullDelivery := by
    refine satisfies_iff.mpr fun j => ?_
    obtain rfl : j = 0 := Subsingleton.elim _ _
    exact ⟨by decide, by decide⟩
  exact ⟨h, (slippage_iff h).mpr (by decide)⟩

/-- The circuit accepts an output of 1 where the user asked for 100. -/
theorem slippage_accepted :
    Satisfies IntentRollupAir.eval (.indicator _ 1) shortDelivery ∧ 0 ≠ Fin.last 1 ∧
      (cols (shortDelivery 0)).solverActualOutput.val <
        (cols (shortDelivery 0)).userMinOutput.val :=
  ⟨shortDelivery_satisfies, by decide, by decide⟩

/-! ## Overdrafts -/

section Overdraft

variable {n : Nat} {sel : Selector (ZMod primeField) n}
  {trace : Trace (ZMod primeField) IntentRollupAir.width n}

/-- The balances of `next` are those of `row` after the payments, as integers. -/
structure SettlesExactly (row next : Row (ZMod primeField)) : Prop where
  user : ((cols next).userBalance.val : ℤ) = (cols row).userBalance.val -
    (cols row).userInputAmount.val + (cols row).solverActualOutput.val
  solver : ((cols next).solverBalance.val : ℤ) = (cols row).solverBalance.val +
    (cols row).userInputAmount.val - (cols row).solverActualOutput.val

theorem val_of_range {x : ZMod primeField} {z : ℤ} (hx : x = z) (hz : 0 ≤ z)
    (hlt : z < primeField) : (x.val : ℤ) = z := by
  rw [hx, ZMod.val_intCast, Int.emod_eq_of_lt hz hlt]

section Paid

variable (h : Satisfies IntentRollupAir.eval sel trace)
  (huser : (cols (trace 0)).userBalance.val < 2 ^ 62)
  (hsolver : (cols (trace 0)).solverBalance.val < 2 ^ 62)
include h huser hsolver

/-- The balances of a row before which nobody has paid more than they had: as integers they
are not negative, and their sum is that of the first, so they are below the modulus. -/
theorem val_balances {k : Fin (n + 1)}
    (hpaid : ∑ j ∈ Finset.Iio k, (((cols (trace j)).userInputAmount.val : ℤ) -
        (cols (trace j)).solverActualOutput.val) ≤ (cols (trace 0)).userBalance.val ∧
      ∑ j ∈ Finset.Iio k, (((cols (trace j)).solverActualOutput.val : ℤ) -
        (cols (trace j)).userInputAmount.val) ≤ (cols (trace 0)).solverBalance.val) :
    ((cols (trace k)).userBalance.val : ℤ) = (cols (trace 0)).userBalance.val +
        ∑ j ∈ Finset.Iio k, (((cols (trace j)).solverActualOutput.val : ℤ) -
          (cols (trace j)).userInputAmount.val) ∧
      ((cols (trace k)).solverBalance.val : ℤ) = (cols (trace 0)).solverBalance.val +
        ∑ j ∈ Finset.Iio k, (((cols (trace j)).userInputAmount.val : ℤ) -
          (cols (trace j)).solverActualOutput.val) := by
  obtain ⟨hu, hs⟩ := balances h k
  have hprime : (2 : ℤ) ^ 63 < primeField := by decide
  rw [Finset.sum_sub_distrib, Finset.sum_sub_distrib] at hpaid
  constructor
  · refine val_of_range (by rw [hu]; push_cast; simp) ?_ ?_
    all_goals
      rw [Finset.sum_sub_distrib]
      omega
  · refine val_of_range (by rw [hs]; push_cast; simp) ?_ ?_
    all_goals
      rw [Finset.sum_sub_distrib]
      omega

/-- With first balances below `2 ^ 62`, no row wraps around if and only if neither side
pays, on balance, more than it had. -/
theorem no_wrap_iff :
    (∀ j : Fin n, SettlesExactly (trace j.castSucc) (trace j.succ)) ↔
    ∀ k : Fin (n + 1),
      ∑ j ∈ Finset.Iio k, (((cols (trace j)).userInputAmount.val : ℤ) -
        (cols (trace j)).solverActualOutput.val) ≤ (cols (trace 0)).userBalance.val ∧
      ∑ j ∈ Finset.Iio k, (((cols (trace j)).solverActualOutput.val : ℤ) -
        (cols (trace j)).userInputAmount.val) ≤ (cols (trace 0)).solverBalance.val := by
  constructor
  · intro hexact k
    have hu := eq_add_sum_Iio (x := fun i => ((cols (trace i)).userBalance.val : ℤ))
      (d := fun i => ((cols (trace i)).solverActualOutput.val : ℤ) -
        (cols (trace i)).userInputAmount.val)
      (fun j => by rw [(hexact j).user]; ring) k
    have hs := eq_add_sum_Iio (x := fun i => ((cols (trace i)).solverBalance.val : ℤ))
      (d := fun i => ((cols (trace i)).userInputAmount.val : ℤ) -
        (cols (trace i)).solverActualOutput.val)
      (fun j => by rw [(hexact j).solver]; ring) k
    rw [Finset.sum_sub_distrib] at hu hs
    rw [Finset.sum_sub_distrib, Finset.sum_sub_distrib]
    constructor
    all_goals omega
  · intro hpaid j
    obtain ⟨hu, hs⟩ := val_balances h huser hsolver (hpaid j.succ)
    obtain ⟨hu', hs'⟩ := val_balances h huser hsolver (hpaid j.castSucc)
    rw [sum_Iio_succ] at hu hs
    exact ⟨by rw [hu, hu']; ring, by rw [hs, hs']; ring⟩

end Paid

end Overdraft

theorem no_wrap_shortDelivery :
    Satisfies IntentRollupAir.eval (.indicator _ 1) shortDelivery ∧
      (cols (shortDelivery 0)).userBalance.val < 2 ^ 62 ∧
      (cols (shortDelivery 0)).solverBalance.val < 2 ^ 62 ∧
      ∀ j : Fin 1, SettlesExactly (shortDelivery j.castSucc) (shortDelivery j.succ) := by
  have huser : (cols (shortDelivery 0)).userBalance.val < 2 ^ 62 := by decide
  have hsolver : (cols (shortDelivery 0)).solverBalance.val < 2 ^ 62 := by decide
  exact ⟨shortDelivery_satisfies, huser, hsolver,
    (no_wrap_iff shortDelivery_satisfies huser hsolver).mpr (by decide)⟩

/-- A user with nothing pays 1. -/
def overdraft : Trace (ZMod primeField) IntentRollupAir.width 1 :=
  ![IntentRollupCols.row ⟨1, 1, 0, 0, 0, 0⟩, IntentRollupCols.row ⟨2, 0, 0, 0, -1, 1⟩]

/-- The circuit accepts it, and the balance of the user is the largest there is. -/
theorem overdraft_accepted :
    Satisfies IntentRollupAir.eval (.indicator _ 1) overdraft ∧
      (∀ i, (cols (overdraft i)).userInputAmount.val < 2 ^ 62 ∧
        (cols (overdraft i)).solverActualOutput.val < 2 ^ 62) ∧
      (cols (overdraft 0)).userBalance.val < 2 ^ 62 ∧
      (cols (overdraft 0)).solverBalance.val < 2 ^ 62 ∧
      (cols (overdraft 1)).userBalance.val = primeField - 1 ∧
      ¬ SettlesExactly (overdraft 0) (overdraft 1) := by
  have hwrapped : (cols (overdraft 1)).userBalance.val = primeField - 1 := by decide
  refine ⟨satisfies_iff.mpr fun j => ?_, by decide, by decide, by decide, hwrapped, fun h => ?_⟩
  · obtain rfl : j = 0 := Subsingleton.elim _ _
    exact ⟨by decide, by decide⟩
  · have huser := h.user
    rw [hwrapped] at huser
    exact absurd huser (by decide)

end EviceChain.Prover
