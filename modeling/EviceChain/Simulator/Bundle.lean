import EviceChain.Engine.OrderBook
import EviceChain.Foundation.Hex

/-!
# Simulation of bundles (`zkapp/simulator/src/lib.rs`)

`EvmSimulator::simulate_bundle` executes transactions one after the other on a cached
fork of the chain and reports what the bundle used and earned. `revm` and its
`CacheDB` are parameters (`Evm`): `transact_commit` and `load_account` are arbitrary
functions that answer and leave a database behind. What is read from a database is
given by four functions of it, and `Evm.Lawful` says which calls leave these alone.
A call returns, fails with a `SimError` or panics; the database is that of the end in
every case. `println!` is left out.

`executions` runs the transactions alone. `runTxs_eq_ok` and `runTxs_eq_err` say what
the loop of `simulate_bundle` does in these terms.

Results:
1. `gasTotal_iff`: the reported gas is that of the whole bundle if and only if the
   transactions that revert or halt have used none; `gasTotal_misses_revert`;
2. `failure_untouched_iff`: a call that fails leaves the fork as it was if and only if
   the transactions committed before the failure do, that is, if there are none;
   `failure_leaves_front`.
-/

namespace EviceChain.Simulator

open Foundation Engine

abbrev Address := BitVec 160

abbrev U256 := BitVec 256

abbrev Bytes := List UInt8

abbrev Text := List Char

/-! ## What is taken from `revm` -/

inductive TxKind
  | call (callee : Address)
  | create

inductive Output
  | call (bytes : Bytes)
  | create (bytes : Bytes) (address : Option Address)

inductive ExecutionResult (HaltReason : Type)
  | success (gasUsed : UInt64) (output : Output)
  | revert (gasUsed : UInt64) (output : Bytes)
  | halt (gasUsed : UInt64) (reason : HaltReason)

namespace ExecutionResult

variable {HaltReason : Type}

def gasUsed : ExecutionResult HaltReason → UInt64
  | success gasUsed _ => gasUsed
  | revert gasUsed _ => gasUsed
  | halt gasUsed _ => gasUsed

def isSuccess : ExecutionResult HaltReason → Bool
  | success .. => true
  | revert .. => false
  | halt .. => false

end ExecutionResult

/-- The parts of `AccountInfo` that are used. -/
structure AccountInfo where
  balance : U256
  nonce : UInt64
  code : Option Bytes

structure Evm where
  Db : Type
  Tx : Type
  caller : Tx → Address
  kind : Tx → TxKind
  EvmError : Type
  DbError : Type
  HaltReason : Type
  /-- The `Debug` form of a reason. -/
  haltText : HaltReason → Text
  transactCommit : Db → Tx → Except EvmError (ExecutionResult HaltReason) × Db
  loadAccount : Db → Address → Except DbError AccountInfo × Db
  /-- What the cached state gives, if it can be had; likewise for the next three. -/
  balance : Db → Address → Option U256
  nonce : Db → Address → Option UInt64
  code : Db → Address → Option Bytes
  storage : Db → Address → U256 → Option U256

namespace Evm

variable (E : Evm)

/-- Two databases give the same balances, nonces, code and storage. -/
structure Same (db db' : E.Db) : Prop where
  balance : E.balance db = E.balance db'
  nonce : E.nonce db = E.nonce db'
  code : E.code db = E.code db'
  storage : E.storage db = E.storage db'

/-- A transaction that is not executed changes nothing, and an account that is loaded is
only cached. -/
structure Lawful : Prop where
  transactCommit_error : ∀ db tx e db', E.transactCommit db tx = (.error e, db') → E.Same db' db
  loadAccount_same : ∀ db address, E.Same (E.loadAccount db address).2 db

/-- 0 for an account that is not there. -/
def nonceOf (db : E.Db) (address : Address) : Nat := ((E.nonce db address).getD 0).toNat

/-- A transaction that is executed counts up the nonce of its sender, and takes no
sender's nonce back. -/
structure CountsNonces : Prop where
  grows : ∀ db tx result db', E.transactCommit db tx = (.ok result, db') →
    E.nonceOf db (E.caller tx) < E.nonceOf db' (E.caller tx)
  keeps : ∀ db tx result db', E.transactCommit db tx = (.ok result, db') →
    ∀ other, E.nonceOf db (E.caller other) ≤ E.nonceOf db' (E.caller other)

variable {E}

theorem Same.refl (db : E.Db) : E.Same db db := ⟨rfl, rfl, rfl, rfl⟩

theorem Same.symm {db db' : E.Db} (h : E.Same db db') : E.Same db' db :=
  ⟨h.balance.symm, h.nonce.symm, h.code.symm, h.storage.symm⟩

theorem Same.trans {db db' db'' : E.Db} (h : E.Same db db') (h' : E.Same db' db'') :
    E.Same db db'' :=
  ⟨h.balance.trans h'.balance, h.nonce.trans h'.nonce, h.code.trans h'.code,
    h.storage.trans h'.storage⟩

theorem Same.nonceOf {db db' : E.Db} (h : E.Same db db') (address : Address) :
    E.nonceOf db address = E.nonceOf db' address := by
  rw [Evm.nonceOf, h.nonce]
  rfl

end Evm

/-! ## The bundle -/

variable {E : Evm}

inductive SimError (E : Evm)
  /-- "Bundle kosong". -/
  | emptyBundle
  /-- "DB Error: …". -/
  | db (error : E.DbError)
  /-- "EVM Error at index …: …". -/
  | evm (index : Nat) (error : E.EvmError)

inductive Failure (E : Evm)
  | err (error : SimError E)
  | panic (fault : Fault)

structure BundleOutput where
  totalGasUsed : UInt64
  victimReverted : Bool
  victimRevertReason : Option Text
  attackerProfit : U256
  createdAddress : Option Address
  createdCode : Option Bytes

/-- The local variables of the loop. -/
structure Tally where
  totalGas : UInt64 := 0
  victimReverted : Bool := false
  revertReason : Option Text := none
  lastCreatedAddress : Option Address := none
  lastCreatedCode : Option Bytes := none

def getBalance (E : Evm) (db : E.Db) (address : Address) : Except (Failure E) U256 × E.Db :=
  match E.loadAccount db address with
  | (.error e, db) => (.error (.err (.db e)), db)
  | (.ok info, db) => (.ok info.balance, db)

/-- `if let Output::Create(bytes, addr) = output { if let Some(a) = addr { … } }`. -/
def Tally.created (tally : Tally) : Output → Tally
  | .create bytes (some address) =>
    { tally with lastCreatedAddress := some address, lastCreatedCode := some bytes }
  | .create _ none => tally
  | .call _ => tally

/-- The second transaction of the bundle is the victim's. -/
def Tally.reverted (tally : Tally) (i : Nat) (reason : Text) : Tally :=
  if i = 1 then { tally with victimReverted := true, revertReason := some reason } else tally

/-- What the loop notes of the `i`-th result. -/
def record (profile : Profile) (i : Nat) (tally : Tally) :
    ExecutionResult E.HaltReason → Except Fault Tally
  | .success gasUsed output => do
    let totalGas ← addU64 profile tally.totalGas gasUsed
    return { tally with totalGas }.created output
  | .revert _ output => .ok (tally.reverted i ("Reverted hex: ".toList ++ hexEncode output))
  | .halt _ reason => .ok (tally.reverted i ("Halted: ".toList ++ E.haltText reason))

/-- The account that a successful call was made to is loaded, whether that succeeds or
not. -/
def lookAtCallee (db : E.Db) (tx : E.Tx) : ExecutionResult E.HaltReason → E.Db
  | .success .. =>
    match E.kind tx with
    | .call callee => (E.loadAccount db callee).2
    | .create => db
  | .revert .. => db
  | .halt .. => db

/-- The loop, from the `i`-th transaction on. -/
def runTxs (profile : Profile) : Nat → Tally → List E.Tx → E.Db →
    Except (Failure E) Tally × E.Db
  | _, tally, [], db => (.ok tally, db)
  | i, tally, tx :: txs, db =>
    match E.transactCommit db tx with
    | (.error e, db) => (.error (.err (.evm i e)), db)
    | (.ok result, db) =>
      match record profile i tally result with
      | .error fault => (.error (.panic fault), db)
      | .ok tally => runTxs profile (i + 1) tally txs (lookAtCallee db tx result)

/-- `I256` subtraction: a build with debug assertions panics on overflow. -/
def signedSub (profile : Profile) (a b : U256) : Except Fault U256 :=
  match profile with
  | .checked => if BitVec.ssubOverflow a b then .error .overflow else .ok (a - b)
  | .wrapping => .ok (a - b)

def simulateBundle (profile : Profile) (db : E.Db) (txs : List E.Tx) :
    Except (Failure E) BundleOutput × E.Db :=
  match txs with
  | [] => (.error (.err .emptyBundle), db)
  | first :: _ =>
    let attacker := E.caller first
    match getBalance E db attacker with
    | (.error failure, db) => (.error failure, db)
    | (.ok preBalance, db) =>
      match runTxs profile 0 {} txs db with
      | (.error failure, db) => (.error failure, db)
      | (.ok tally, db) =>
        match getBalance E db attacker with
        | (.error failure, db) => (.error failure, db)
        | (.ok postBalance, db) =>
          match signedSub profile postBalance preBalance with
          | .error fault => (.error (.panic fault), db)
          | .ok diff =>
            (.ok {
              totalGasUsed := tally.totalGas
              victimReverted := tally.victimReverted
              victimRevertReason := tally.revertReason
              attackerProfit := diff
              createdAddress := tally.lastCreatedAddress
              createdCode := tally.lastCreatedCode }, db)

/-! ## The transactions alone -/

/-- The results of all transactions and the database after them, if none fails. -/
def executions : List E.Tx → E.Db → Option (List (ExecutionResult E.HaltReason) × E.Db)
  | [], db => some ([], db)
  | tx :: txs, db =>
    match E.transactCommit db tx with
    | (.error _, _) => none
    | (.ok result, db) =>
      (executions txs (lookAtCallee db tx result)).map fun r => (result :: r.1, r.2)

/-- The execution stops in the database `before`, when some transactions have had their
`results`: the next one fails with `e` and leaves the database `after`. -/
inductive Stops : List E.Tx → E.Db → List (ExecutionResult E.HaltReason) → E.Db → E.EvmError →
    E.Db → Prop
  | here {tx : E.Tx} {txs : List E.Tx} {db after : E.Db} {e : E.EvmError} :
      E.transactCommit db tx = (.error e, after) → Stops (tx :: txs) db [] db e after
  | later {tx : E.Tx} {txs : List E.Tx} {db next before after : E.Db} {e : E.EvmError}
      {result : ExecutionResult E.HaltReason} {results : List (ExecutionResult E.HaltReason)} :
      E.transactCommit db tx = (.ok result, next) →
      Stops txs (lookAtCallee next tx result) results before e after →
      Stops (tx :: txs) db (result :: results) before e after

/-- What the loop notes of a list of results. -/
def recordAll (profile : Profile) : Nat → Tally → List (ExecutionResult E.HaltReason) →
    Except Fault Tally
  | _, tally, [] => .ok tally
  | i, tally, result :: results => do
    let tally ← record profile i tally result
    recordAll profile (i + 1) tally results

/-- The database after the first reading of the attacker's balance. -/
def started (db : E.Db) : List E.Tx → E.Db
  | [] => db
  | first :: _ => (E.loadAccount db (E.caller first)).2

/-- The gas that is added up. -/
def ExecutionResult.counted {HaltReason : Type} (result : ExecutionResult HaltReason) : Nat :=
  if result.isSuccess then result.gasUsed.toNat else 0

def countedGas {HaltReason : Type} (results : List (ExecutionResult HaltReason)) : Nat :=
  (results.map ExecutionResult.counted).sum

/-- The gas of all transactions. -/
def bundleGas {HaltReason : Type} (results : List (ExecutionResult HaltReason)) : Nat :=
  (results.map fun result => result.gasUsed.toNat).sum

namespace BundleLemmas

variable {profile : Profile} {i : Nat} {tally tally' : Tally}
  {result : ExecutionResult E.HaltReason} {results : List (ExecutionResult E.HaltReason)}

/-! ## Adding up -/

theorem created_eq (tally : Tally) (output : Output) :
    (tally.created output).totalGas = tally.totalGas ∧
      (tally.created output).victimReverted = tally.victimReverted := by
  unfold Tally.created
  split <;> exact ⟨rfl, rfl⟩

theorem reverted_eq (tally : Tally) (i : Nat) (reason : Text) :
    (tally.reverted i reason).totalGas = tally.totalGas ∧
      (tally.reverted i reason).victimReverted = (tally.victimReverted || i = 1) := by
  unfold Tally.reverted
  split
  · next h => simp [h]
  · next h => simp [h]

theorem addU64_eq_ok {a b c : UInt64} :
    addU64 profile a b = .ok c ↔
      (profile = .checked → a.toNat + b.toNat < 2 ^ 64) ∧ a + b = c := by
  unfold addU64
  split
  · next h => exact ⟨fun hc => ⟨fun _ => h, Except.ok.inj hc⟩, fun hc => congrArg _ hc.2⟩
  · next h =>
    cases profile with
    | checked => exact ⟨fun hc => (by cases hc), fun hc => (h (hc.1 rfl)).elim⟩
    | wrapping =>
      exact ⟨fun hc => ⟨fun hp => (by cases hp), Except.ok.inj hc⟩, fun hc => congrArg _ hc.2⟩

theorem record_success (tally : Tally) (gasUsed : UInt64) (output : Output) :
    record (E := E) profile i tally (.success gasUsed output) = .ok tally' ↔
      (profile = .checked → tally.totalGas.toNat + gasUsed.toNat < 2 ^ 64) ∧
        { tally with totalGas := tally.totalGas + gasUsed }.created output = tally' := by
  rw [record, bind_eq_ok]
  constructor
  · rintro ⟨total, hadd, h⟩
    obtain ⟨hfits, rfl⟩ := addU64_eq_ok.mp hadd
    exact ⟨hfits, Except.ok.inj h⟩
  · rintro ⟨hfits, h⟩
    exact ⟨_, addU64_eq_ok.mpr ⟨hfits, rfl⟩, congrArg _ h⟩

theorem record_failed (profile : Profile) (i : Nat) (tally : Tally) (h : result.isSuccess = false) :
    ∃ reason, record profile i tally result = .ok (tally.reverted i reason) := by
  cases result with
  | success => cases h
  | revert _ output => exact ⟨_, rfl⟩
  | halt _ reason => exact ⟨_, rfl⟩

theorem record_isOk :
    (∃ tally', record profile i tally result = .ok tally') ↔
      (profile = .checked → tally.totalGas.toNat + result.counted < 2 ^ 64) := by
  cases hsuccess : result.isSuccess with
  | true =>
    cases result with
    | success gasUsed output =>
      refine ⟨fun ⟨_, h⟩ => ((record_success tally gasUsed output).mp h).1, fun h => ?_⟩
      exact ⟨_, (record_success tally gasUsed output).mpr ⟨h, rfl⟩⟩
    | revert => cases hsuccess
    | halt => cases hsuccess
  | false =>
    obtain ⟨reason, hrecord⟩ := record_failed profile i tally hsuccess
    refine ⟨fun _ _ => ?_, fun _ => ⟨_, hrecord⟩⟩
    simp only [ExecutionResult.counted, hsuccess]
    exact tally.totalGas.toNat_lt

theorem record_spec (h : record profile i tally result = .ok tally') :
    tally'.totalGas.toNat = (tally.totalGas.toNat + result.counted) % 2 ^ 64 ∧
      (tally'.victimReverted = true ↔
        tally.victimReverted = true ∨ i = 1 ∧ result.isSuccess = false) := by
  cases hsuccess : result.isSuccess with
  | true =>
    cases result with
    | success gasUsed output =>
      obtain ⟨-, rfl⟩ := (record_success tally gasUsed output).mp h
      obtain ⟨hgas, hvictim⟩ :=
        created_eq { tally with totalGas := tally.totalGas + gasUsed } output
      rw [hgas, hvictim]
      refine ⟨UInt64.toNat_add _ _, by simp⟩
    | revert => cases hsuccess
    | halt => cases hsuccess
  | false =>
    obtain ⟨reason, hrecord⟩ := record_failed profile i tally hsuccess
    rw [h] at hrecord
    cases hrecord
    obtain ⟨hgas, hvictim⟩ := reverted_eq tally i reason
    rw [hgas, hvictim]
    simp only [ExecutionResult.counted, hsuccess]
    exact ⟨(Nat.mod_eq_of_lt tally.totalGas.toNat_lt).symm, by simp⟩

theorem recordAll_cons :
    recordAll profile i tally (result :: results) = .ok tally' ↔
      ∃ next, record profile i tally result = .ok next ∧
        recordAll profile (i + 1) next results = .ok tally' :=
  bind_eq_ok

theorem recordAll_isOk :
    (∃ tally', recordAll profile i tally results = .ok tally') ↔
      (profile = .checked → tally.totalGas.toNat + countedGas results < 2 ^ 64) := by
  induction results generalizing i tally with
  | nil => exact ⟨fun _ _ => tally.totalGas.toNat_lt, fun _ => ⟨tally, rfl⟩⟩
  | cons result results ih =>
    have hsum : countedGas (result :: results) = result.counted + countedGas results := by
      simp [countedGas]
    rw [hsum]
    constructor
    · rintro ⟨tally', h⟩ hchecked
      obtain ⟨next, hnext, hrest⟩ := recordAll_cons.mp h
      have hfits := record_isOk.mp ⟨next, hnext⟩ hchecked
      have hgas := (record_spec hnext).1
      rw [Nat.mod_eq_of_lt hfits] at hgas
      have hall := ih.mp ⟨tally', hrest⟩ hchecked
      omega
    · intro h
      have hfits : profile = .checked → tally.totalGas.toNat + result.counted < 2 ^ 64 := by
        intro hchecked
        have := h hchecked
        omega
      obtain ⟨next, hnext⟩ := record_isOk.mpr hfits
      have hrest : profile = .checked → next.totalGas.toNat + countedGas results < 2 ^ 64 := by
        intro hchecked
        rw [(record_spec hnext).1, Nat.mod_eq_of_lt (hfits hchecked)]
        have := h hchecked
        omega
      obtain ⟨tally', htally'⟩ := ih.mpr hrest
      exact ⟨tally', recordAll_cons.mpr ⟨next, hnext, htally'⟩⟩

theorem recordAll_gas (h : recordAll profile i tally results = .ok tally') :
    tally'.totalGas.toNat = (tally.totalGas.toNat + countedGas results) % 2 ^ 64 := by
  induction results generalizing i tally with
  | nil =>
    cases h
    exact (Nat.mod_eq_of_lt (UInt64.toNat_lt _)).symm
  | cons result results ih =>
    obtain ⟨next, hnext, hrest⟩ := recordAll_cons.mp h
    rw [ih hrest, (record_spec hnext).1, Nat.mod_add_mod, Nat.add_assoc]
    rfl

/-- From the second transaction on, the flag stays as it is; before, the transaction at
index 1 decides. -/
theorem recordAll_victim (h : recordAll profile i tally results = .ok tally') :
    tally'.victimReverted = true ↔
      tally.victimReverted = true ∨
        ∃ k result, i + k = 1 ∧ results[k]? = some result ∧ result.isSuccess = false := by
  induction results generalizing i tally with
  | nil =>
    cases h
    simp
  | cons result results ih =>
    obtain ⟨next, hnext, hrest⟩ := recordAll_cons.mp h
    rw [ih hrest, (record_spec hnext).2, or_assoc]
    refine or_congr_right ⟨?_, ?_⟩
    · rintro (⟨hi, hfailed⟩ | ⟨k, r, hk, hr, hfailed⟩)
      · exact ⟨0, result, hi, rfl, hfailed⟩
      · exact ⟨k + 1, r, by omega, hr, hfailed⟩
    · rintro ⟨k, r, hk, hr, hfailed⟩
      cases k with
      | zero =>
        cases hr
        exact .inl ⟨hk, hfailed⟩
      | succ k => exact .inr ⟨k, r, by omega, hr, hfailed⟩

/-! ## The loop -/

variable {tx : E.Tx} {txs : List E.Tx} {db db' : E.Db}

theorem executions_error {e : E.EvmError} {next : E.Db}
    (h : E.transactCommit db tx = (.error e, next)) (txs : List E.Tx) :
    executions (tx :: txs) db = none := by
  rw [executions, h]

theorem executions_ok {next : E.Db} (h : E.transactCommit db tx = (.ok result, next)) :
    executions (tx :: txs) db = some (results, db') ↔
      ∃ rest, results = result :: rest ∧
        executions txs (lookAtCallee next tx result) = some (rest, db') := by
  rw [executions, h]
  dsimp only
  constructor
  · intro hmap
    obtain ⟨⟨rest, last⟩, hrest, heq⟩ := Option.map_eq_some_iff.mp hmap
    cases heq
    exact ⟨rest, rfl, hrest⟩
  · rintro ⟨rest, rfl, hrest⟩
    rw [hrest]
    rfl

/-- The loop comes to its end if every transaction is executed and the gas can be added
up. -/
theorem runTxs_eq_ok :
    runTxs profile i tally txs db = (.ok tally', db') ↔
      ∃ results, executions txs db = some (results, db') ∧
        recordAll profile i tally results = .ok tally' := by
  induction txs generalizing i tally db with
  | nil =>
    constructor
    · intro h
      cases h
      exact ⟨[], rfl, rfl⟩
    · rintro ⟨results, hrun, hrecord⟩
      cases hrun
      cases hrecord
      rfl
  | cons tx txs ih =>
    rw [runTxs]
    split
    · next e next hcommit =>
      rw [executions_error hcommit]
      simp
    · next result next hcommit =>
      simp only [executions_ok hcommit]
      split
      · next fault hrecord =>
        constructor
        · intro h
          cases h
        · rintro ⟨_, ⟨rest, rfl, -⟩, hall⟩
          rw [recordAll, hrecord] at hall
          cases hall
      · next tally₁ hrecord =>
        rw [ih]
        constructor
        · rintro ⟨rest, hrun, hall⟩
          exact ⟨_, ⟨rest, rfl, hrun⟩, recordAll_cons.mpr ⟨tally₁, hrecord, hall⟩⟩
        · rintro ⟨_, ⟨rest, rfl, hrun⟩, hall⟩
          obtain ⟨_, hfirst, hrest⟩ := recordAll_cons.mp hall
          rw [hrecord] at hfirst
          cases hfirst
          exact ⟨rest, hrun, hrest⟩

theorem stops_error {results : List (ExecutionResult E.HaltReason)} {e error : E.EvmError}
    {next before after : E.Db} (h : E.transactCommit db tx = (.error e, next)) :
    Stops (tx :: txs) db results before error after ↔
      results = [] ∧ before = db ∧ error = e ∧ after = next := by
  constructor
  · intro hstops
    cases hstops with
    | here hfails =>
      rw [h] at hfails
      cases hfails
      exact ⟨rfl, rfl, rfl, rfl⟩
    | later hdone =>
      rw [h] at hdone
      cases hdone
  · rintro ⟨rfl, rfl, rfl, rfl⟩
    exact .here h

theorem stops_ok {results : List (ExecutionResult E.HaltReason)} {error : E.EvmError}
    {next before after : E.Db} (h : E.transactCommit db tx = (.ok result, next)) :
    Stops (tx :: txs) db results before error after ↔
      ∃ rest, results = result :: rest ∧
        Stops txs (lookAtCallee next tx result) rest before error after := by
  constructor
  · intro hstops
    cases hstops with
    | here hfails =>
      rw [h] at hfails
      cases hfails
    | later hdone hrest =>
      rw [h] at hdone
      cases hdone
      exact ⟨_, rfl, hrest⟩
  · rintro ⟨rest, rfl, hrest⟩
    exact .later h hrest

/-- It fails at the transaction at which the execution stops. -/
theorem runTxs_eq_err {e : SimError E} :
    runTxs profile i tally txs db = (.error (.err e), db') ↔
      ∃ results before error, Stops txs db results before error db' ∧
        (∃ tally', recordAll profile i tally results = .ok tally') ∧
        e = .evm (i + results.length) error := by
  induction txs generalizing i tally db with
  | nil =>
    constructor
    · intro h
      cases h
    · rintro ⟨results, before, error, hstops, -⟩
      cases hstops
  | cons tx txs ih =>
    rw [runTxs]
    split
    · next error next hcommit =>
      simp only [stops_error hcommit]
      constructor
      · intro h
        cases h
        exact ⟨[], db, error, ⟨rfl, rfl, rfl, rfl⟩, ⟨tally, rfl⟩, rfl⟩
      · rintro ⟨_, _, _, ⟨rfl, rfl, rfl, rfl⟩, -, rfl⟩
        rfl
    · next result next hcommit =>
      simp only [stops_ok hcommit]
      split
      · next fault hrecord =>
        constructor
        · intro h
          cases h
        · rintro ⟨_, _, _, ⟨rest, rfl, -⟩, ⟨_, hall⟩, -⟩
          rw [recordAll, hrecord] at hall
          cases hall
      · next tally₁ hrecord =>
        have hall : ∀ rest, (∃ tally', recordAll profile i tally (result :: rest) = .ok tally') ↔
            ∃ tally', recordAll profile (i + 1) tally₁ rest = .ok tally' := by
          intro rest
          rw [recordAll, hrecord]
          rfl
        rw [ih]
        constructor
        · rintro ⟨rest, before, error, hstops, hrest, rfl⟩
          refine ⟨_, before, error, ⟨rest, rfl, hstops⟩, (hall rest).mpr hrest, ?_⟩
          rw [List.length_cons, Nat.add_assoc, Nat.add_comm 1]
        · rintro ⟨_, before, error, ⟨rest, rfl, hstops⟩, hrest, rfl⟩
          refine ⟨rest, before, error, hstops, (hall rest).mp hrest, ?_⟩
          rw [List.length_cons, Nat.add_assoc, Nat.add_comm 1]

end BundleLemmas

namespace BundleLemmas

variable {profile : Profile} {db db' : E.Db} {address : Address}

theorem getBalance_ok {balance : U256} (h : getBalance E db address = (.ok balance, db')) :
    ∃ info, E.loadAccount db address = (.ok info, db') := by
  unfold getBalance at h
  split at h
  · cases h
  · next info next hload =>
    cases h
    exact ⟨info, hload⟩

theorem getBalance_error {failure : Failure E}
    (h : getBalance E db address = (.error failure, db')) :
    ∃ e, E.loadAccount db address = (.error e, db') := by
  unfold getBalance at h
  split at h
  · next e next hload =>
    cases h
    exact ⟨e, hload⟩
  · cases h

theorem recordAll_start {results : List (ExecutionResult E.HaltReason)} :
    (∃ tally, recordAll profile 0 {} results = .ok tally) ↔
      (profile = .checked → countedGas results < 2 ^ 64) := by
  rw [recordAll_isOk]
  exact imp_congr_right fun _ => iff_of_eq (congrArg (· < 2 ^ 64) (Nat.zero_add _))

theorem simulateBundle_ok {txs : List E.Tx} {out : BundleOutput}
    (h : simulateBundle profile db txs = (.ok out, db')) :
    ∃ results last tally, executions txs (started db txs) = some (results, last) ∧
      recordAll profile 0 {} results = .ok tally ∧ out.totalGasUsed = tally.totalGas ∧
      out.victimReverted = tally.victimReverted := by
  unfold simulateBundle at h
  split at h
  · cases h
  · next first more =>
    dsimp only at h
    split at h
    · cases h
    · next pre db₁ hpre =>
      split at h
      · cases h
      · next tally db₂ hrun =>
        split at h
        · cases h
        · split at h
          · cases h
          · cases h
            obtain ⟨results, hexecuted, hrecord⟩ := runTxs_eq_ok.mp hrun
            obtain ⟨info, hload⟩ := getBalance_ok hpre
            have hstarted : started db (first :: more) = db₁ := by
              rw [started, hload]
            rw [hstarted]
            exact ⟨results, db₂, tally, hexecuted, hrecord, rfl, rfl⟩

theorem bundleGas_eq_counted {HaltReason : Type} (results : List (ExecutionResult HaltReason)) :
    countedGas results ≤ bundleGas results ∧
      (countedGas results = bundleGas results ↔
        ∀ result ∈ results, result.isSuccess = false → result.gasUsed = 0) := by
  induction results with
  | nil => simp [countedGas, bundleGas]
  | cons result results ih =>
    obtain ⟨hle, hiff⟩ := ih
    have hcounted : countedGas (result :: results) = result.counted + countedGas results := by
      simp [countedGas]
    have hbundle : bundleGas (result :: results) = result.gasUsed.toNat + bundleGas results := by
      simp [bundleGas]
    rw [hcounted, hbundle, List.forall_mem_cons, ← hiff]
    cases hsuccess : result.isSuccess with
    | true =>
      simp only [ExecutionResult.counted, hsuccess, if_pos]
      exact ⟨by omega, by simp⟩
    | false =>
      have hzero : result.counted = 0 := by
        simp [ExecutionResult.counted, hsuccess]
      rw [hzero, ← UInt64.toNat_inj]
      refine ⟨by omega, ⟨fun h => ⟨fun _ => ?_, ?_⟩, fun ⟨h, hrest⟩ => ?_⟩⟩
      · show result.gasUsed.toNat = 0
        omega
      · omega
      · have hgas : result.gasUsed.toNat = 0 := h rfl
        omega

end BundleLemmas

open BundleLemmas

/-! ## The gas of a bundle -/

/-- Of a bundle that is simulated: all transactions were executed, and the reported gas is
the sum of what they used, and the flag says whether the second one failed, if and only if
those that reverted or halted used no gas and the sum fits into 64 bits. -/
theorem gasTotal_iff {profile : Profile} {db db' : E.Db} {txs : List E.Tx} {out : BundleOutput}
    (h : simulateBundle profile db txs = (.ok out, db')) :
    ∃ results last, executions txs (started db txs) = some (results, last) ∧
      ((out.totalGasUsed.toNat = bundleGas results ∧
          (out.victimReverted = true ↔
            ∃ result, results[1]? = some result ∧ result.isSuccess = false)) ↔
        (∀ result ∈ results, result.isSuccess = false → result.gasUsed = 0) ∧
          bundleGas results < 2 ^ 64) := by
  obtain ⟨results, last, tally, hexecuted, hrecord, hgas, hvictim⟩ := simulateBundle_ok h
  refine ⟨results, last, hexecuted, ?_⟩
  have htotal := recordAll_gas hrecord
  have hflag : tally.victimReverted = true ↔
      ∃ result, results[1]? = some result ∧ result.isSuccess = false := by
    rw [recordAll_victim hrecord]
    simp
  obtain ⟨hle, hcounted⟩ := bundleGas_eq_counted results
  have hzero : ({} : Tally).totalGas.toNat = 0 := rfl
  rw [hzero, Nat.zero_add] at htotal
  rw [hgas, hvictim, ← hcounted]
  constructor
  · rintro ⟨hsum, -⟩
    have hlt := tally.totalGas.toNat_lt
    rw [Nat.mod_eq_of_lt (by omega)] at htotal
    exact ⟨by omega, by omega⟩
  · rintro ⟨hsame, hlt⟩
    refine ⟨?_, hflag⟩
    rw [htotal, Nat.mod_eq_of_lt (by omega), hsame]

/-- A database that counts the transactions committed to it, as the nonce of everybody; a
transaction is its result, or none if it cannot be executed. -/
def countingEvm : Evm where
  Db := Nat
  Tx := Option (ExecutionResult Unit)
  caller _ := 0
  kind _ := .create
  EvmError := Unit
  DbError := Unit
  HaltReason := Unit
  haltText _ := []
  transactCommit db
    | none => (.error (), db)
    | some result => if db + 1 < 2 ^ 64 then (.ok result, db + 1) else (.error (), db)
  loadAccount db _ := (.ok ⟨BitVec.ofNat 256 db, 0, none⟩, db)
  balance db _ := some (BitVec.ofNat 256 db)
  nonce db _ := some (UInt64.ofNat db)
  code _ _ := none
  storage _ _ _ := some 0

/-- Two successful transactions. -/
theorem gasTotal_two :
    ∃ out db', simulateBundle (E := countingEvm) .checked (0 : Nat)
        [some (.success 21000 (.call [])), some (.success 30000 (.call []))] = (.ok out, db') ∧
      out.totalGasUsed.toNat = 51000 ∧ out.victimReverted = false := by
  obtain ⟨results, last, hexecuted, hiff⟩ := gasTotal_iff (E := countingEvm)
    (rfl : simulateBundle .checked (0 : Nat)
      [some (.success 21000 (.call [])), some (.success 30000 (.call []))] = (.ok _, _))
  cases hexecuted
  obtain ⟨hgas, hvictim⟩ := hiff.mpr (by decide)
  refine ⟨_, _, rfl, hgas, ?_⟩
  rw [Bool.eq_false_iff, ne_eq, hvictim]
  decide

/-- The victim's transaction reverts, and its gas is missing. -/
theorem gasTotal_misses_revert :
    ∃ out db' results last, simulateBundle (E := countingEvm) .checked (0 : Nat)
        [some (.success 21000 (.call [])), some (.revert 30000 [])] = (.ok out, db') ∧
      executions (E := countingEvm)
        [some (.success 21000 (.call [])), some (.revert 30000 [])] (0 : Nat) =
          some (results, last) ∧
      bundleGas results = 51000 ∧ out.totalGasUsed = 21000 :=
  ⟨_, _, _, _, rfl, rfl, rfl, rfl⟩

/-! ## What a failed simulation leaves behind -/

/-- The call fails when the database is `before` and some transactions are `committed`: at
the next one, or at the second reading of the attacker's balance. The gas so far can be
added up. -/
inductive FailsAfter (profile : Profile) (db : E.Db) :
    List E.Tx → List (ExecutionResult E.HaltReason) → E.Db → Prop
  | tx {first : E.Tx} {more : List E.Tx} {info : AccountInfo} {db₀ before after : E.Db}
      {committed : List (ExecutionResult E.HaltReason)} {e : E.EvmError}
      (read : E.loadAccount db (E.caller first) = (.ok info, db₀))
      (stops : Stops (first :: more) db₀ committed before e after)
      (adds : profile = .checked → countedGas committed < 2 ^ 64) :
      FailsAfter profile db (first :: more) committed before
  | balance {first : E.Tx} {more : List E.Tx} {info : AccountInfo} {db₀ before after : E.Db}
      {committed : List (ExecutionResult E.HaltReason)} {e : E.DbError}
      (read : E.loadAccount db (E.caller first) = (.ok info, db₀))
      (executed : executions (first :: more) db₀ = some (committed, before))
      (adds : profile = .checked → countedGas committed < 2 ^ 64)
      (fails : E.loadAccount before (E.caller first) = (.error e, after)) :
      FailsAfter profile db (first :: more) committed before

section

variable {profile : Profile} {db before after : E.Db} {txs : List E.Tx}
  {committed : List (ExecutionResult E.HaltReason)}

theorem Stops.same (hE : E.Lawful) {e : E.EvmError}
    (h : Stops txs db committed before e after) : E.Same after before := by
  induction h with
  | here hfails => exact hE.transactCommit_error _ _ _ _ hfails
  | later _ _ ih => exact ih

theorem Evm.Lawful.load (hE : E.Lawful) {address : Address} {r : Except E.DbError AccountInfo}
    (h : E.loadAccount db address = (r, after)) : E.Same after db := by
  have hsame := hE.loadAccount_same db address
  rwa [h] at hsame

/-- The transactions that were committed, without the one that fails. -/
theorem Stops.executions {e : E.EvmError} (h : Stops txs db committed before e after) :
    ∃ front, executions front db = some (committed, before) := by
  induction h with
  | here => exact ⟨[], rfl⟩
  | @later tx _ _ _ _ _ _ _ _ hdone _ ih =>
    obtain ⟨front, hfront⟩ := ih
    exact ⟨tx :: front, (executions_ok hdone).mpr ⟨_, rfl, hfront⟩⟩

theorem FailsAfter.fails (hE : E.Lawful) (h : FailsAfter profile db txs committed before) :
    ∃ e after, simulateBundle profile db txs = (.error (.err e), after) ∧
      E.Same after before := by
  cases h with
  | @tx first more info db₀ _ after _ e hread hstops hadds =>
    have hrun := runTxs_eq_err.mpr ⟨committed, before, e, hstops, recordAll_start.mpr hadds, rfl⟩
    refine ⟨.evm (0 + committed.length) e, after, ?_, hstops.same hE⟩
    simp only [simulateBundle, getBalance, hread, hrun]
  | @balance first more info db₀ _ after _ e hread hexecuted hadds hfails =>
    obtain ⟨tally, htally⟩ := recordAll_start.mpr hadds
    have hrun := runTxs_eq_ok.mpr ⟨committed, hexecuted, htally⟩
    refine ⟨.db e, after, ?_, hE.load hfails⟩
    simp only [simulateBundle, getBalance, hread, hrun, hfails]

/-- A failed call has changed nothing, or it fails after some transactions. -/
theorem simulateBundle_err (hE : E.Lawful) {e : SimError E}
    (h : simulateBundle profile db txs = (.error (.err e), after)) :
    E.Same after db ∨
      ∃ committed before, FailsAfter profile db txs committed before ∧ E.Same after before := by
  unfold simulateBundle at h
  split at h
  · cases h
    exact .inl (.refl db)
  · next first more =>
    dsimp only at h
    split at h
    · next failure db₀ hpre =>
      cases h
      obtain ⟨_, hload⟩ := getBalance_error hpre
      exact .inl (hE.load hload)
    · next pre db₀ hpre =>
      obtain ⟨info, hread⟩ := getBalance_ok hpre
      split at h
      · next failure db₁ hrun =>
        cases h
        obtain ⟨results, before, error, hstops, hadds, -⟩ := runTxs_eq_err.mp hrun
        exact .inr ⟨results, before, .tx hread hstops (recordAll_start.mp hadds), hstops.same hE⟩
      · next tally db₁ hrun =>
        obtain ⟨results, hexecuted, hrecord⟩ := runTxs_eq_ok.mp hrun
        split at h
        · next failure db₂ hpost =>
          cases h
          obtain ⟨_, hfails⟩ := getBalance_error hpost
          have hadds := recordAll_start.mp ⟨tally, hrecord⟩
          exact .inr ⟨results, db₁, .balance hread hexecuted hadds hfails, hE.load hfails⟩
        · split at h
          · cases h
          · cases h

/-! What the nonces tell. -/

theorem Evm.Lawful.lookAtCallee_same (hE : E.Lawful) (db : E.Db) (tx : E.Tx)
    (result : ExecutionResult E.HaltReason) : E.Same (lookAtCallee db tx result) db := by
  unfold lookAtCallee
  split
  · split
    · exact hE.loadAccount_same db _
    · exact .refl db
  · exact .refl db
  · exact .refl db

theorem executions_keeps (hE : E.Lawful) (hN : E.CountsNonces) (other : E.Tx)
    (h : executions txs db = some (committed, before)) :
    E.nonceOf db (E.caller other) ≤ E.nonceOf before (E.caller other) := by
  induction txs generalizing db committed with
  | nil =>
    cases h
    exact le_rfl
  | cons tx txs ih =>
    rcases hcommit : E.transactCommit db tx with ⟨_ | result, next⟩
    · rw [executions_error hcommit] at h
      cases h
    · obtain ⟨rest, -, hrest⟩ := (executions_ok hcommit).mp h
      calc E.nonceOf db (E.caller other)
          ≤ E.nonceOf next (E.caller other) := hN.keeps _ _ _ _ hcommit other
        _ = E.nonceOf (lookAtCallee next tx result) (E.caller other) :=
          ((hE.lookAtCallee_same next tx result).nonceOf _).symm
        _ ≤ E.nonceOf before (E.caller other) := ih hrest

/-- Where something is committed, the nonce of the first sender has grown. -/
theorem nothing_committed (hE : E.Lawful) (hN : E.CountsNonces)
    (h : executions txs db = some (committed, before)) (hsame : E.Same before db) :
    committed = [] := by
  cases txs with
  | nil =>
    cases h
    rfl
  | cons tx txs =>
    rcases hcommit : E.transactCommit db tx with ⟨_ | result, next⟩
    · rw [executions_error hcommit] at h
      cases h
    · obtain ⟨rest, -, hrest⟩ := (executions_ok hcommit).mp h
      have hgrown := hN.grows _ _ _ _ hcommit
      have hkept := executions_keeps hE hN tx hrest
      rw [(hE.lookAtCallee_same next tx result).nonceOf, hsame.nonceOf] at hkept
      exact (hgrown.not_ge hkept).elim

theorem FailsAfter.committed_eq_nil (hE : E.Lawful) (hN : E.CountsNonces)
    (h : FailsAfter profile db txs committed before) (hsame : E.Same before db) :
    committed = [] := by
  cases h with
  | tx hread hstops =>
    obtain ⟨front, hfront⟩ := hstops.executions
    exact nothing_committed hE hN hfront (hsame.trans (hE.load hread).symm)
  | balance hread hexecuted =>
    exact nothing_committed hE hN hexecuted (hsame.trans (hE.load hread).symm)

theorem FailsAfter.same_of_nil (hE : E.Lawful) (h : FailsAfter profile db txs [] before) :
    E.Same before db := by
  cases h with
  | tx hread hstops =>
    cases hstops
    exact hE.load hread
  | @balance first more _ db₀ _ _ _ _ hread hexecuted =>
    rcases hcommit : E.transactCommit db₀ first with ⟨_ | result, next⟩
    · rw [executions_error hcommit] at hexecuted
      cases hexecuted
    · obtain ⟨rest, hnil, -⟩ := (executions_ok hcommit).mp hexecuted
      cases hnil

theorem untouched_iff (hE : E.Lawful) :
    (∀ e after, simulateBundle profile db txs = (.error (.err e), after) → E.Same after db) ↔
      ∀ committed before, FailsAfter profile db txs committed before → E.Same before db := by
  constructor
  · intro h committed before hfails
    obtain ⟨e, after, hcall, hsame⟩ := hfails.fails hE
    exact hsame.symm.trans (h e after hcall)
  · intro h e after hcall
    rcases simulateBundle_err hE hcall with hsame | ⟨committed, before, hfails, hsame⟩
    · exact hsame
    · exact hsame.trans (h committed before hfails)

end

/-- Every failed call leaves the fork as it was if and only if the transactions committed
before the failure do. Where transactions count up nonces, this means that none is
committed before. -/
theorem failure_untouched_iff (hE : E.Lawful) (profile : Profile) (db : E.Db)
    (txs : List E.Tx) :
    ((∀ e after, simulateBundle profile db txs = (.error (.err e), after) → E.Same after db) ↔
      ∀ committed before, FailsAfter profile db txs committed before → E.Same before db) ∧
    (E.CountsNonces →
      ((∀ e after, simulateBundle profile db txs = (.error (.err e), after) → E.Same after db) ↔
        ∀ committed before, FailsAfter profile db txs committed before → committed = [])) := by
  refine ⟨untouched_iff hE, fun hN => (untouched_iff hE).trans ?_⟩
  refine forall_congr' fun committed => forall_congr' fun before => ?_
  refine ⟨fun h hfails => hfails.committed_eq_nil hE hN (h hfails), fun h hfails => ?_⟩
  cases h hfails
  exact hfails.same_of_nil hE

theorem countingEvm_commit {db db' : Nat} {tx : countingEvm.Tx} {result : ExecutionResult Unit}
    (h : countingEvm.transactCommit db tx = (.ok result, db')) :
    db + 1 < 2 ^ 64 ∧ db' = db + 1 := by
  cases tx with
  | none => cases h
  | some result =>
    dsimp only [countingEvm] at h
    split at h
    · next hroom =>
      cases h
      exact ⟨hroom, rfl⟩
    · cases h

theorem countingEvm_lawful : countingEvm.Lawful where
  transactCommit_error db tx e db' h := by
    cases tx with
    | none =>
      cases h
      exact .refl db
    | some result =>
      dsimp only [countingEvm] at h
      split at h
      · cases h
      · cases h
        exact .refl db
  loadAccount_same db _ := .refl db

theorem countingEvm_nonceOf {db : Nat} (h : db < 2 ^ 64) (address : Address) :
    countingEvm.nonceOf db address = db :=
  UInt64.toNat_ofNat_of_lt h

theorem countingEvm_countsNonces : countingEvm.CountsNonces := by
  have hgrows (db : countingEvm.Db) (tx : countingEvm.Tx) (result : ExecutionResult Unit)
      (db' : countingEvm.Db) (h : countingEvm.transactCommit db tx = (.ok result, db'))
      (address : Address) : countingEvm.nonceOf db address < countingEvm.nonceOf db' address := by
    obtain ⟨hroom, rfl⟩ := countingEvm_commit h
    rw [countingEvm_nonceOf hroom, countingEvm_nonceOf (Nat.lt_of_succ_lt hroom)]
    exact Nat.lt_succ_self _
  exact ⟨fun db tx result db' h => hgrows db tx result db' h _,
    fun db tx result db' h _ => (hgrows db tx result db' h _).le⟩

/-- A transaction that succeeds and one that fails. If the one that fails comes first, nothing
was committed before it and the fork is untouched; if it comes second, it is not. -/
theorem failure_untouched_first :
    (∃ e after, simulateBundle (E := countingEvm) .checked (0 : Nat)
        [none, some (.success 21000 (.call []))] = (.error (.err e), after) ∧
      countingEvm.Same after (0 : Nat)) ∧
    ¬ ∀ e after, simulateBundle (E := countingEvm) .checked (0 : Nat)
        [some (.success 21000 (.call [])), none] = (.error (.err e), after) →
      countingEvm.Same after (0 : Nat) := by
  constructor
  · obtain ⟨-, hiff⟩ := failure_untouched_iff countingEvm_lawful .checked (0 : Nat)
      [none, some (.success 21000 (.call []))]
    refine ⟨_, _, rfl, (hiff countingEvm_countsNonces).mpr (fun committed before hfails => ?_) _ _
      rfl⟩
    cases hfails with
    | tx hread hstops =>
      cases hstops with
      | here => rfl
      | later hdone => cases hdone
    | balance _ hexecuted => cases hexecuted
  · intro huntouched
    obtain ⟨-, hiff⟩ := failure_untouched_iff countingEvm_lawful .checked (0 : Nat)
      [some (.success 21000 (.call [])), none]
    have hfails : FailsAfter (E := countingEvm) .checked (0 : Nat)
        [some (.success 21000 (.call [])), none] [.success 21000 (.call [])] (1 : Nat) :=
      .tx rfl (.later rfl (.here rfl)) (fun _ => by decide)
    cases (hiff countingEvm_countsNonces).mp huntouched _ _ hfails

/-- The second transaction fails, and the first one stays. -/
theorem failure_leaves_front :
    ∃ e after, simulateBundle (E := countingEvm) .checked (0 : Nat)
        [some (.success 21000 (.call [])), none] = (.error (.err e), after) ∧
      countingEvm.balance after 0 ≠ countingEvm.balance (0 : Nat) 0 :=
  ⟨_, _, rfl, by decide⟩

end EviceChain.Simulator
