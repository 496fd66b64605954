import Mathlib

/-!
# Receivers of a broadcast channel

`BroadcastChannel` is what is documented of such a channel: a receiver gets the values that
are sent after it has subscribed, one after the other, or an error, and waits when it has
got them all. A `Listener` is a loop that passes on what it receives and ends with the
first error, or when it cannot pass a value on.

`Contiguous`: as long as the loop goes on, what it has passed on is a piece of what was
sent that begins where it subscribed and has no gaps.
-/

namespace Foundation

inductive RecvError
  /-- The receiver has fallen behind, and so many values are lost for it. -/
  | lagged (missed : Nat)
  /-- Nobody is left who could send. -/
  | closed
deriving DecidableEq, Repr

/-- A channel, over everything that has been sent through it. Where a receiver stands is
seen only in what it gets. -/
structure BroadcastChannel (α : Type) where
  Receiver : Type
  subscribe : List α → Receiver
  /-- `none` as long as the receiver waits. -/
  recv : List α → Receiver → Option (Except RecvError α × Receiver)
  position : Receiver → Nat
  position_subscribe : ∀ sent, position (subscribe sent) = sent.length
  recv_ok : ∀ {sent receiver a receiver'}, recv sent receiver = some (.ok a, receiver') →
    sent[position receiver]? = some a ∧ position receiver' = position receiver + 1
  recv_waits : ∀ {sent receiver}, recv sent receiver = none → sent.length ≤ position receiver

variable {α : Type}

/-- A loop over a receiver: where it subscribed, the receiver while the loop goes on, and
what it has passed on. -/
structure Listener (channel : BroadcastChannel α) where
  start : Nat
  receiver : Option channel.Receiver
  passed : List α

namespace Listener

variable {channel : BroadcastChannel α}

/-- A new loop sees what is sent from now on. -/
def subscribe (channel : BroadcastChannel α) (sent : List α) : Listener channel :=
  ⟨sent.length, some (channel.subscribe sent), []⟩

/-- One turn of the loop; `none` if it has ended or waits. -/
def receive (sent : List α) (listener : Listener channel) (passedOn : Bool) :
    Option (Listener channel) := do
  let receiver ← listener.receiver
  let (received, receiver) ← channel.recv sent receiver
  match received, passedOn with
  | .ok a, true =>
    return { listener with receiver := some receiver, passed := listener.passed ++ [a] }
  | .ok _, false | .error _, _ => return { listener with receiver := none }

/-- The loop has missed nothing. -/
structure Contiguous (sent : List α) (listener : Listener channel) : Prop where
  begun : listener.start ≤ sent.length
  passed : ∀ receiver ∈ listener.receiver, listener.start ≤ channel.position receiver ∧
    channel.position receiver ≤ sent.length ∧
    listener.passed = (sent.take (channel.position receiver)).drop listener.start

variable {sent : List α} {listener listener' : Listener channel}

theorem Contiguous.send (h : Contiguous sent listener) (more : List α) :
    Contiguous (sent ++ more) listener where
  begun := h.begun.trans (List.length_append ▸ Nat.le_add_right _ _)
  passed := by
    intro receiver hreceiver
    obtain ⟨hbegun, hreached, hpassed⟩ := h.passed receiver hreceiver
    refine ⟨hbegun, hreached.trans (List.length_append ▸ Nat.le_add_right _ _), ?_⟩
    rw [List.take_append_of_le_length hreached]
    exact hpassed

/-- What a turn does: the next value is passed on, or the loop ends. -/
theorem receive_cases {passedOn : Bool}
    (h : listener.receive sent passedOn = some listener') :
    listener'.start = listener.start ∧
      (listener'.receiver = none ∨ ∃ receiver a receiver', listener.receiver = some receiver ∧
        channel.recv sent receiver = some (.ok a, receiver') ∧
        listener'.receiver = some receiver' ∧ listener'.passed = listener.passed ++ [a]) := by
  obtain ⟨receiver, hreceiver, h⟩ := Option.bind_eq_some_iff.mp h
  obtain ⟨⟨received, receiver'⟩, hrecv, h⟩ := Option.bind_eq_some_iff.mp h
  cases received with
  | error => cases h; exact ⟨rfl, .inl rfl⟩
  | ok a =>
    cases passedOn with
    | false => cases h; exact ⟨rfl, .inl rfl⟩
    | true => cases h; exact ⟨rfl, .inr ⟨receiver, a, receiver', hreceiver, hrecv, rfl, rfl⟩⟩

theorem Contiguous.receive {passedOn : Bool} (h : Contiguous sent listener)
    (hreceive : listener.receive sent passedOn = some listener') :
    Contiguous sent listener' := by
  obtain ⟨hstart, hended | ⟨receiver, a, receiver', hopen, hrecv, hopen', hpassed⟩⟩ :=
    receive_cases hreceive
  · exact ⟨hstart ▸ h.begun, fun receiver hreceiver => nomatch hended ▸ hreceiver⟩
  · obtain ⟨hbegun, hreached, hbefore⟩ := h.passed receiver hopen
    obtain ⟨ha, hnext⟩ := channel.recv_ok hrecv
    have hlt : channel.position receiver < sent.length := (List.getElem?_eq_some_iff.mp ha).1
    refine ⟨hstart ▸ h.begun, fun r hr => ?_⟩
    cases hopen'.symm.trans hr
    rw [hstart, hnext]
    refine ⟨Nat.le_succ_of_le hbegun, hlt, ?_⟩
    have hlong : listener.start ≤ (sent.take (channel.position receiver)).length := by
      rw [List.length_take_of_le hreached]
      exact hbegun
    rw [hpassed, List.take_add_one, ha, List.drop_append_of_le_length hlong, hbefore]
    rfl

end Listener

end Foundation
