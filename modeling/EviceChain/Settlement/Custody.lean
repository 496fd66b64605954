import EviceChain.Settlement.Rollup

/-!
# What the settlement contract holds (`contracts/src/EviceRollup.sol`)

The contract is deployed with a balance: `depositIntent` is payable, and no function
pays out. `Account` is the contract with what its calls brought in. Ether that is
forced on an address without a call is not counted.

`Escrow` says what the contract is for on this side. It takes a deposit while its
switch is off, counts it and knows the intent, and its owner, who may change, turns
the switch. Nothing else is in it: no proof, no batch, no order of checks.

Results:
1. `escrow_simulates`: every call on the account is the step of the escrow, and a call
   that reverts is one on which the escrow does nothing;
2. `custody_exact`: over all calls, the deposits logged are those the escrow takes, the
   balance is their sum, the intents with a status are theirs, and while the switch
   is on nobody but the owner can change more than the verifier. So what was paid
   in stays: a batch that resolves an intent releases nothing.
-/

namespace EviceChain.Settlement

open Foundation

/-! ## The account of the contract -/

structure Account where
  contract : EviceRollup
  balance : Nat

/-- A call with its value, which comes back if the call reverts. -/
def Account.call (a : Account) (tx : Msg × Call) : Except Revert (Account × List Event) := do
  let (contract, events) ← Settlement.call a.contract tx
  return (⟨contract, a.balance + tx.1.value.toNat⟩, events)

/-- The account and the events of a contract that begins with nothing. -/
def accountHistory (c : EviceRollup) (txs : List (Msg × Call)) : Account × List Event :=
  ledger Account.call ⟨c, 0⟩ txs

def EviceRollup.withVerifier (c : EviceRollup) (verifier : Address) : EviceRollup :=
  { c with verifier }

/-! ## The escrow -/

structure Deposit where
  intentId : Bytes32
  user : Address
  amount : UInt256
deriving DecidableEq, Repr

def Event.deposit? : Event → Option Deposit
  | .intentLocked intentId user amount => some ⟨intentId, user, amount⟩
  | _ => none

structure Escrow where
  owner : Address
  paused : Bool
  held : Nat
  known : Set Bytes32

/-- The message is from the owner, and of no value. -/
def Escrow.Governs (s : Escrow) (msg : Msg) : Prop := msg.value = 0 ∧ msg.sender = s.owner

instance (s : Escrow) (msg : Msg) : Decidable (s.Governs msg) :=
  inferInstanceAs (Decidable (_ ∧ _))

def Escrow.take (s : Escrow) (deposit : Deposit) : Escrow :=
  { s with
    held := s.held + deposit.amount.toNat
    known := insert deposit.intentId s.known }

/-- The escrow after a call, and the deposit it takes. -/
def Escrow.step (s : Escrow) : Msg × Call → Escrow × List Deposit
  | (msg, .depositIntent id) =>
    let deposit : Deposit := ⟨id, msg.sender, msg.value⟩
    if s.paused = false ∧ msg.value ≠ 0 then (s.take deposit, [deposit]) else (s, [])
  | (msg, .pauseSystem) => (if s.Governs msg then { s with paused := true } else s, [])
  | (msg, .unpauseSystem) => (if s.Governs msg then { s with paused := false } else s, [])
  | (msg, .transferOwnership newOwner) =>
    (if s.Governs msg ∧ newOwner ≠ 0 then { s with owner := newOwner } else s, [])
  | (msg, .renounceOwnership) => (if s.Governs msg then { s with owner := 0 } else s, [])
  | (_, .setVerifier _) | (_, .updateStateWithIntents ..) => (s, [])

/-- The deposits an escrow of `owner` takes in the calls `txs`. -/
def taken (owner : Address) (txs : List (Msg × Call)) : List Deposit :=
  (chronicle Escrow.step ⟨owner, false, 0, ∅⟩ txs).2

def Account.escrow (a : Account) : Escrow where
  owner := a.contract.owner
  paused := a.contract.paused
  held := a.balance
  known := {id | a.contract.intentRegistry id ≠ .none}

namespace CustodyLemmas

open RollupLemmas

/-! ## One call -/

theorem require_bind_error {α : Type} {condition : Bool} {e e' : Revert}
    {f : Unit → Except Revert α} (h : require condition e >>= f = .error e') :
    condition = false ∨ f () = .error e' := by
  cases condition with
  | false => exact .inl rfl
  | true => exact .inr h

/-- What a call needs that only the owner may make. -/
theorem governs_of_ok {a : Account} {msg : Msg} {α : Type} {f : Unit → Except Revert α} {r : α}
    (h : (nonPayable msg >>= fun _ => onlyOwner a.contract msg >>= f) = .ok r) :
    a.escrow.Governs msg ∧ f () = .ok r := by
  obtain ⟨hvalue, h⟩ := require_bind.mp h
  obtain ⟨hsender, h⟩ := require_bind.mp h
  exact ⟨⟨of_decide_eq_true hvalue, of_decide_eq_true hsender⟩, h⟩

theorem governs_of_error {a : Account} {msg : Msg} {α : Type} {f : Unit → Except Revert α}
    {e : Revert} (h : (nonPayable msg >>= fun _ => onlyOwner a.contract msg >>= f) = .error e)
    (hgoverns : a.escrow.Governs msg) : f () = .error e := by
  rcases require_bind_error h with hvalue | h
  · exact (of_decide_eq_false hvalue hgoverns.1).elim
  · rcases require_bind_error h with hsender | h
    · exact (of_decide_eq_false hsender hgoverns.2).elim
    · exact h

/-- A call of no value leaves the balance. -/
theorem balance_free {msg : Msg} (hvalue : msg.value = 0) (balance : Nat) :
    balance + msg.value.toNat = balance := by
  rw [hvalue]
  rfl

/-- A batch resolves intents that are known, and forgets none. -/
theorem settleIntents_known (sequencer : Address) (registry : Bytes32 → IntentStatus)
    (ids : List Bytes32) (id : Bytes32) :
    (settleIntents sequencer registry ids).1 id ≠ .none ↔ registry id ≠ .none := by
  rw [(settleIntents_spec sequencer registry ids id).1]
  split
  · next hlocked => simp [hlocked.1]
  · rfl

theorem settleIntents_deposits (sequencer : Address) (registry : Bytes32 → IntentStatus)
    (ids : List Bytes32) :
    (settleIntents sequencer registry ids).2.filterMap Event.deposit? = [] := by
  induction ids using List.reverseRecOn with
  | nil => rfl
  | append_singleton ids id ih =>
    rw [settleIntents, List.foldl_append, List.foldl_cons, List.foldl_nil, ← settleIntents,
      settleIntent]
    split
    · rw [List.filterMap_append, ih]
      rfl
    · exact ih

theorem update_known (registry : Bytes32 → IntentStatus) (id : Bytes32) :
    {x | Function.update registry id .locked x ≠ .none} = insert id {x | registry x ≠ .none} := by
  ext x
  rcases eq_or_ne x id with rfl | hne
  · simp
  · simp [hne]

/-- A call on the account that succeeds is one on the contract. -/
theorem account_ok {a a' : Account} {tx : Msg × Call} {events : List Event}
    (h : a.call tx = .ok (a', events)) :
    call a.contract tx = .ok (a'.contract, events) ∧
      a'.balance = a.balance + tx.1.value.toNat := by
  unfold Account.call at h
  cases hcall : call a.contract tx with
  | error e =>
    rw [hcall] at h
    cases h
  | ok result =>
    rw [hcall] at h
    cases h
    exact ⟨rfl, rfl⟩

theorem account_error {a : Account} {tx : Msg × Call} {e : Revert}
    (h : a.call tx = .error e) : call a.contract tx = .error e := by
  unfold Account.call at h
  cases hcall : call a.contract tx with
  | error e' =>
    rw [hcall] at h
    cases h
    rfl
  | ok result =>
    rw [hcall] at h
    cases h

/-- The escrow takes the step of a call that succeeds. -/
theorem escrow_ok {a a' : Account} {tx : Msg × Call} {events : List Event}
    (h : a.call tx = .ok (a', events)) :
    a.escrow.step tx = (a'.escrow, events.filterMap Event.deposit?) := by
  obtain ⟨msg, cmd⟩ := tx
  obtain ⟨c', balance'⟩ := a'
  obtain ⟨h, rfl : balance' = a.balance + msg.value.toNat⟩ := account_ok h
  change call a.contract (msg, cmd) = .ok (c', events) at h
  cases cmd with
  | depositIntent id =>
    cases call_effect h with
    | deposit hpaused hvalue =>
      have htakes : a.escrow.paused = false ∧ msg.value ≠ 0 := ⟨hpaused, hvalue⟩
      rw [Escrow.step, if_pos htakes, Escrow.take, Account.escrow, Account.escrow, update_known]
      rfl
    | admin hcmd _ => cases hcmd
  | updateStateWithIntents newStateRoot proof ids =>
    have hvalue : msg.value = 0 := of_decide_eq_true (require_bind.mp h).1
    cases call_effect h with
    | update _ _ _ =>
      rw [balance_free hvalue, List.filterMap_append, settleIntents_deposits]
      simp only [Escrow.step, Account.escrow, settleIntents_known]
      rfl
    | admin hcmd _ => cases hcmd
  | setVerifier verifierAddress =>
    obtain ⟨hvalue, h⟩ := require_bind.mp h
    obtain ⟨-, h⟩ := require_bind.mp h
    cases h
    rw [balance_free (of_decide_eq_true hvalue)]
    rfl
  | pauseSystem =>
    obtain ⟨hgoverns, h⟩ := governs_of_ok h
    obtain ⟨-, h⟩ := require_bind.mp h
    cases h
    rw [Escrow.step, if_pos hgoverns, balance_free hgoverns.1]
    rfl
  | unpauseSystem =>
    obtain ⟨hgoverns, h⟩ := governs_of_ok h
    obtain ⟨-, h⟩ := require_bind.mp h
    cases h
    rw [Escrow.step, if_pos hgoverns, balance_free hgoverns.1]
    rfl
  | transferOwnership newOwner =>
    obtain ⟨hgoverns, h⟩ := governs_of_ok h
    obtain ⟨hnew, h⟩ := require_bind.mp h
    cases h
    rw [Escrow.step, if_pos ⟨hgoverns, of_decide_eq_true hnew⟩, balance_free hgoverns.1]
    rfl
  | renounceOwnership =>
    obtain ⟨hgoverns, h⟩ := governs_of_ok h
    cases h
    rw [Escrow.step, if_pos hgoverns, balance_free hgoverns.1]
    rfl

/-- On a call that reverts the escrow does nothing. -/
theorem escrow_error {a : Account} {tx : Msg × Call} {e : Revert} (h : a.call tx = .error e) :
    a.escrow.step tx = (a.escrow, []) := by
  obtain ⟨msg, cmd⟩ := tx
  have h := account_error h
  cases cmd with
  | depositIntent id =>
    refine if_neg fun ⟨hpaused, hvalue⟩ => ?_
    rw [call_deposit hpaused hvalue] at h
    cases h
  | updateStateWithIntents _ _ _ => rfl
  | setVerifier _ => rfl
  | pauseSystem =>
    refine Prod.ext (ite_eq_right_iff.mpr fun hgoverns => ?_) rfl
    -- the owner's pause reverts only when the switch is on
    rcases require_bind_error (governs_of_error h hgoverns) with hpaused | h
    · have hpaused : a.escrow.paused = true := (Bool.not_eq_false' _).mp hpaused
      rw [← hpaused]
    · cases h
  | unpauseSystem =>
    refine Prod.ext (ite_eq_right_iff.mpr fun hgoverns => ?_) rfl
    rcases require_bind_error (governs_of_error h hgoverns) with hpaused | h
    · have hpaused : a.escrow.paused = false := hpaused
      rw [← hpaused]
    · cases h
  | transferOwnership newOwner =>
    refine Prod.ext (if_neg fun ⟨hgoverns, hnew⟩ => ?_) rfl
    rcases require_bind_error (governs_of_error h hgoverns) with hzero | h
    · exact of_decide_eq_false hzero hnew
    · cases h
  | renounceOwnership =>
    refine Prod.ext (if_neg fun hgoverns => ?_) rfl
    cases governs_of_error h hgoverns

theorem escrow_simulates :
    Simulates Account.call Escrow.step Account.escrow Event.deposit? :=
  ⟨escrow_ok, escrow_error⟩

/-! ## All calls -/

/-- The account is the contract: the balance is beside it. -/
theorem account_contract (c : EviceRollup) (txs : List (Msg × Call)) :
    (accountHistory c txs).1.contract = (history c txs).1 ∧
      (accountHistory c txs).2 = (history c txs).2 := by
  induction txs using List.reverseRecOn with
  | nil => exact ⟨rfl, rfl⟩
  | append_singleton txs tx ih =>
    obtain ⟨hcontract, hlog⟩ := ih
    have haccount : (∃ e, (accountHistory c txs).1.call tx = .error e ∧
          accountHistory c (txs ++ [tx]) = accountHistory c txs) ∨
        ∃ a' events, (accountHistory c txs).1.call tx = .ok (a', events) ∧
          accountHistory c (txs ++ [tx]) = (a', (accountHistory c txs).2 ++ events) :=
      ledger_step _ txs tx
    rcases haccount with ⟨e, ha, hstep⟩ | ⟨a', events, ha, hstep⟩
    · have hcall := account_error ha
      rw [hcontract] at hcall
      rcases history_step c txs tx with ⟨_, -, hstep'⟩ | ⟨_, _, hok, -⟩
      · rw [hstep, hstep']
        exact ⟨hcontract, hlog⟩
      · rw [hcall] at hok
        cases hok
    · have hcall := (account_ok ha).1
      rw [hcontract] at hcall
      rcases history_step c txs tx with ⟨_, herror, -⟩ | ⟨_, _, hok, hstep'⟩
      · rw [hcall] at herror
        cases herror
      · rw [hcall] at hok
        cases hok
        rw [hstep, hstep', hlog]
        exact ⟨rfl, rfl⟩

/-- The books of the escrow are those of its deposits. -/
structure Balanced (s : Escrow) (log : List Deposit) : Prop where
  held : s.held = (log.map (·.amount.toNat)).sum
  known : s.known = {id | ∃ deposit ∈ log, deposit.intentId = id}

theorem Balanced.take {s : Escrow} {log : List Deposit} (h : Balanced s log) (deposit : Deposit) :
    Balanced (s.take deposit) (log ++ [deposit]) where
  held := by
    rw [List.map_append, List.sum_append, ← h.held]
    rfl
  known := by
    ext id
    simp only [Escrow.take, h.known, Set.mem_insert_iff, Set.mem_ofPred_eq, List.mem_append,
      List.mem_singleton, or_and_right, exists_or, exists_eq_left]
    rw [or_comm, eq_comm]

/-- Only a deposit is written in the books. -/
theorem Balanced.step {s : Escrow} {log : List Deposit} (h : Balanced s log) (tx : Msg × Call) :
    Balanced (s.step tx).1 (log ++ (s.step tx).2) := by
  obtain ⟨msg, cmd⟩ := tx
  have hkept : Balanced s (log ++ []) := by rwa [List.append_nil]
  have hturn : ∀ (p : Prop) [Decidable p] (owner : Address) (paused : Bool),
      Balanced (if p then { s with owner, paused } else s) (log ++ []) := by
    intro p _ owner paused
    split
    · exact ⟨hkept.held, hkept.known⟩
    · exact hkept
  cases cmd with
  | depositIntent id =>
    unfold Escrow.step
    dsimp only
    split
    · exact h.take _
    · exact hkept
  | updateStateWithIntents _ _ _ => exact hkept
  | setVerifier _ => exact hkept
  | pauseSystem => exact hturn _ _ _
  | unpauseSystem => exact hturn _ _ _
  | transferOwnership _ => exact hturn _ _ _
  | renounceOwnership => exact hturn _ _ _

theorem balanced_chronicle (owner : Address) (txs : List (Msg × Call)) :
    Balanced (chronicle Escrow.step ⟨owner, false, 0, ∅⟩ txs).1 (taken owner txs) := by
  induction txs using List.reverseRecOn with
  | nil => exact ⟨rfl, by ext id; simp [taken, chronicle]⟩
  | append_singleton txs tx ih =>
    rw [taken, chronicle_snoc]
    exact ih.step tx

/-- While the switch is on, a call of anyone but the owner is nothing to the escrow. -/
theorem step_of_paused {s : Escrow} {tx : Msg × Call} (hpaused : s.paused = true)
    (hsender : tx.1.sender ≠ s.owner) : s.step tx = (s, []) := by
  obtain ⟨msg, cmd⟩ := tx
  have hgoverns : ¬s.Governs msg := fun h => hsender h.2
  cases cmd <;> simp [Escrow.step, hpaused, hgoverns]

/-- A call while the switch is on changes the switch, the owner or the verifier only. -/
theorem call_of_paused {c c' : EviceRollup} {tx : Msg × Call} {events : List Event}
    (h : call c tx = .ok (c', events)) (hpaused : c.paused = true) :
    c' = { c with owner := c'.owner, paused := c'.paused, verifier := c'.verifier } := by
  obtain ⟨msg, cmd⟩ := tx
  cases call_effect h with
  | deposit hoff _ => exact (Bool.false_ne_true (hoff.symm.trans hpaused)).elim
  | update _ hoff _ => exact (Bool.false_ne_true (hoff.symm.trans hpaused)).elim
  | admin _ _ => rfl

/-- The account after `txs` is the escrow after `txs`. -/
theorem account_escrow {sequencer owner : Address} {root : Bytes32} {c : EviceRollup}
    (hdeploy : deploy sequencer root owner = .ok c) (txs : List (Msg × Call)) :
    chronicle Escrow.step ⟨owner, false, 0, ∅⟩ txs =
      ((accountHistory c txs).1.escrow, (accountHistory c txs).2.filterMap Event.deposit?) := by
  have hfirst : (⟨owner, false, 0, ∅⟩ : Escrow) = (⟨c, 0⟩ : Account).escrow := by
    unfold deploy at hdeploy
    split at hdeploy
    · cases hdeploy
    · cases hdeploy
      simp [Account.escrow]
  rw [hfirst]
  exact escrow_simulates.ledger ⟨c, 0⟩ txs

theorem chronicle_switch {sequencer owner : Address} {root : Bytes32} {c : EviceRollup}
    (hdeploy : deploy sequencer root owner = .ok c) (txs : List (Msg × Call)) :
    (chronicle Escrow.step ⟨owner, false, 0, ∅⟩ txs).1.owner = (history c txs).1.owner ∧
      (chronicle Escrow.step ⟨owner, false, 0, ∅⟩ txs).1.paused = (history c txs).1.paused := by
  rw [account_escrow hdeploy, ← (account_contract c txs).1]
  exact ⟨rfl, rfl⟩

/-! ## While the switch is on -/

theorem chronicle_frozen {s : Escrow} {txs later : List (Msg × Call)}
    (hpaused : (chronicle Escrow.step s txs).1.paused = true)
    (hlater : ∀ tx ∈ later, tx.1.sender ≠ (chronicle Escrow.step s txs).1.owner) :
    chronicle Escrow.step s (txs ++ later) = chronicle Escrow.step s txs := by
  induction later using List.reverseRecOn with
  | nil => rw [List.append_nil]
  | append_singleton later tx ih =>
    have ih := ih fun tx htx => hlater tx (List.mem_append_left _ htx)
    have hsender := hlater tx (List.mem_append_right _ (List.mem_singleton_self _))
    rw [← List.append_assoc, chronicle_snoc, ih, step_of_paused hpaused hsender, List.append_nil]

section Frozen

variable {sequencer owner : Address} {root : Bytes32} {c : EviceRollup}
  (hdeploy : deploy sequencer root owner = .ok c) {txs : List (Msg × Call)}
  (hpaused : (history c txs).1.paused = true)

include hdeploy hpaused

theorem escrow_frozen {later : List (Msg × Call)}
    (hlater : ∀ tx ∈ later, tx.1.sender ≠ (history c txs).1.owner) :
    chronicle Escrow.step ⟨owner, false, 0, ∅⟩ (txs ++ later) =
      chronicle Escrow.step ⟨owner, false, 0, ∅⟩ txs := by
  obtain ⟨howner, hswitch⟩ := chronicle_switch hdeploy txs
  exact chronicle_frozen (hswitch.trans hpaused) (by rwa [howner])

/-- The escrow stands still, and with it the owner and the switch. -/
theorem switch_frozen {later : List (Msg × Call)}
    (hlater : ∀ tx ∈ later, tx.1.sender ≠ (history c txs).1.owner) :
    (history c (txs ++ later)).1.owner = (history c txs).1.owner ∧
      (history c (txs ++ later)).1.paused = (history c txs).1.paused := by
  obtain ⟨howner, hswitch⟩ := chronicle_switch hdeploy txs
  obtain ⟨howner', hswitch'⟩ := chronicle_switch hdeploy (txs ++ later)
  rw [escrow_frozen hdeploy hpaused hlater] at howner' hswitch'
  exact ⟨howner'.symm.trans howner, hswitch'.symm.trans hswitch⟩

theorem history_frozen {later : List (Msg × Call)}
    (hlater : ∀ tx ∈ later, tx.1.sender ≠ (history c txs).1.owner) :
    ∃ verifier, (history c (txs ++ later)).1 = (history c txs).1.withVerifier verifier := by
  induction later using List.reverseRecOn with
  | nil => exact ⟨(history c txs).1.verifier, by rw [List.append_nil]; rfl⟩
  | append_singleton later tx ih =>
    have hbefore : ∀ tx ∈ later, tx.1.sender ≠ (history c txs).1.owner :=
      fun tx htx => hlater tx (List.mem_append_left _ htx)
    obtain ⟨verifier, ih⟩ := ih hbefore
    have hswitch := switch_frozen hdeploy hpaused hlater
    rw [← List.append_assoc] at hswitch ⊢
    rcases history_step c (txs ++ later) tx with ⟨_, -, hstep⟩ | ⟨c', events, hcall, hstep⟩
    · rw [hstep]
      exact ⟨verifier, ih⟩
    · rw [hstep] at hswitch ⊢
      rw [ih] at hcall
      have hkept := call_of_paused hcall hpaused
      rw [hswitch.1, hswitch.2] at hkept
      exact ⟨c'.verifier, hkept⟩

end Frozen

end CustodyLemmas

open CustodyLemmas

/-- The account of a contract deployed for `owner`, after the calls `txs`. -/
structure Custody (c : EviceRollup) (owner : Address) (txs : List (Msg × Call)) : Prop where
  contract : (accountHistory c txs).1.contract = (history c txs).1
  deposits : (history c txs).2.filterMap Event.deposit? = taken owner txs
  balance : (accountHistory c txs).1.balance = ((taken owner txs).map (·.amount.toNat)).sum
  registered : ∀ id, (history c txs).1.intentRegistry id ≠ .none ↔
    ∃ deposit ∈ taken owner txs, deposit.intentId = id
  frozen : ∀ later, (history c txs).1.paused = true →
    (∀ tx ∈ later, tx.1.sender ≠ (history c txs).1.owner) →
    taken owner (txs ++ later) = taken owner txs ∧
      ∃ verifier, (history c (txs ++ later)).1 = (history c txs).1.withVerifier verifier

/-- In every sequence of calls the contract keeps the books of an escrow: it logs the
deposits the escrow takes, its balance is their sum whatever the batches resolve, and it
knows their intents and no others. While it is paused, calls that are not the owner's
change at most the verifier. -/
theorem custody_exact {sequencer owner : Address} {root : Bytes32} {c : EviceRollup}
    (hdeploy : deploy sequencer root owner = .ok c) (txs : List (Msg × Call)) :
    Custody c owner txs := by
  have hbooks := balanced_chronicle owner txs
  have hdeposits : (history c txs).2.filterMap Event.deposit? = taken owner txs := by
    rw [taken, account_escrow hdeploy, (account_contract c txs).2]
  rw [account_escrow hdeploy] at hbooks
  refine ⟨(account_contract c txs).1, hdeposits, hbooks.held, fun id => ?_,
    fun later hpaused hlater =>
      ⟨congrArg Prod.snd (escrow_frozen hdeploy hpaused hlater),
        history_frozen hdeploy hpaused hlater⟩⟩
  rw [← (account_contract c txs).1]
  exact Set.ext_iff.mp hbooks.known id

/-- Two deposits, one of them resolved, around a pause in which a third is refused. -/
def pausedRun : List (Msg × Call) :=
  [send 1 0 (.setVerifier 9), send 3 5 (.depositIntent 7), send 2 0 .pauseSystem,
    send 4 6 (.depositIntent 8), send 3 0 .unpauseSystem, send 2 0 .unpauseSystem,
    send 1 0 (.updateStateWithIntents 1 [0] [7]), send 4 2 (.depositIntent 8)]

theorem custody_exact_pausedRun : ∃ c, deploy 1 0 2 = .ok c ∧ Custody c 2 pausedRun ∧
    taken 2 pausedRun = [⟨7, 3, 5⟩, ⟨8, 4, 2⟩] ∧
    (accountHistory c pausedRun).1.balance = 7 ∧
    (history c pausedRun).1.intentRegistry 7 = .resolved := by
  refine ⟨_, rfl, custody_exact (rfl : deploy 1 0 2 = .ok _) pausedRun, ?_, ?_, ?_⟩
  all_goals decide +kernel

end EviceChain.Settlement
