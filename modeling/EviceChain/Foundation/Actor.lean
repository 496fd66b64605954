import EviceChain.Foundation.Run

/-!
# Calls of an actor

An actor has a mailbox with room for a number of calls and handles one call after the
other. Callers run next to each other. A call that is not refused goes into the mailbox
when there is room, and its caller waits for the reply, unless the kind of the call tells
the reply. The actor may change its state on its own between two calls, and it may fail
while it handles a call: then it handles no more, and what is in the mailbox is lost.
A caller may give up at any time, which does not take its call back.

`linearizable`: what the callers have been told are the replies that the calls get when
they are handled one after the other in some order, and if a caller had its reply before
another call began, its call comes first in that order.
-/

namespace Foundation

/-- Calls `κ` with replies `ρ` of an actor with states `σ`. When it handles a call, and
when it acts on its own, it finds out something of the world (`μ`, `ε`). -/
structure Actor (κ ρ σ μ ε : Type) where
  refuses : κ → Bool
  /-- The reply to a call whose caller does not wait. -/
  prompt : κ → Option ρ
  handle : σ → μ → κ → Option (ρ × σ)
  idle : σ → ε → σ
  capacity : Nat
  prompt_eq : ∀ {s s' moment call reply told}, prompt call = some told →
    handle s moment call = some (reply, s') → reply = told

/-- Where a call is. -/
inductive CallStage (ρ : Type)
  | invoked
  | sent
  | answered (reply : ρ)
  /-- The caller has returned, or has given up. -/
  | over
deriving DecidableEq

inductive Outcome (ρ : Type)
  | refused
  | failed
  | replied (reply : ρ)
deriving DecidableEq

/-- What callers do, in the order in which it happens. -/
inductive Occurrence (ρ : Type)
  | invoke (i : Nat)
  | ret (i : Nat) (outcome : Outcome ρ)
deriving DecidableEq

/-- What the actor has done. -/
inductive Work (κ μ ε : Type)
  | call (i : Nat) (call : κ) (moment : μ)
  | idle (own : ε)

def Work.caller? {κ μ ε : Type} : Work κ μ ε → Option Nat
  | .call i _ _ => some i
  | .idle _ => none

/-- The calls are numbered as they come; `next` is the number of the next one. What the
actor has done and replied, and what the callers have seen, is its past. -/
structure Office (κ ρ σ μ ε : Type) where
  actor : Option σ
  mailbox : List Nat
  calls : Nat → Option (κ × CallStage ρ)
  next : Nat
  done : List (Work κ μ ε)
  replies : List (Nat × ρ)
  history : List (Occurrence ρ)

inductive Move (κ μ ε : Type)
  | invoke (call : κ)
  | refuse (i : Nat)
  | send (i : Nat)
  /-- The caller finds that the actor has failed. -/
  | fail (i : Nat)
  /-- The caller goes on without waiting. -/
  | detach (i : Nat)
  | take (moment : μ)
  | idle (own : ε)
  /-- The caller gets the reply. -/
  | receive (i : Nat)
  | abandon (i : Nat)

namespace Office

variable {κ ρ σ μ ε : Type}

def new (s : σ) : Office κ ρ σ μ ε := ⟨some s, [], fun _ => none, 0, [], [], []⟩

def setStage (o : Office κ ρ σ μ ε) (i : Nat) (call : κ) (stage : CallStage ρ) : Office κ ρ σ μ ε :=
  { o with calls := Function.update o.calls i (some (call, stage)) }

def finish (o : Office κ ρ σ μ ε) (i : Nat) (call : κ) (outcome : Outcome ρ) :
    Office κ ρ σ μ ε :=
  { o.setStage i call .over with history := o.history ++ [.ret i outcome] }

/-- The actor has failed. -/
def shut (o : Office κ ρ σ μ ε) : Office κ ρ σ μ ε := { o with actor := none, mailbox := [] }

/-- The actor has handled the first call of the mailbox. -/
def did (o : Office κ ρ σ μ ε) (s : σ) (i : Nat) (rest : List Nat) (call : κ) (moment : μ)
    (reply : ρ) : Office κ ρ σ μ ε :=
  { o with
    actor := some s
    mailbox := rest
    done := o.done ++ [.call i call moment]
    replies := o.replies ++ [(i, reply)] }

/-- The actor has acted on its own. -/
def idled (o : Office κ ρ σ μ ε) (s : σ) (own : ε) : Office κ ρ σ μ ε :=
  { o with actor := some s, done := o.done ++ [.idle own] }

/-- The reply to a call that has been handled: nobody may be waiting for it any more. -/
def post (A : Actor κ ρ σ μ ε) (o : Office κ ρ σ μ ε) (i : Nat) (call : κ) (stage : CallStage ρ)
    (reply : ρ) : Office κ ρ σ μ ε :=
  match stage, A.prompt call with
  | .sent, none => o.setStage i call (.answered reply)
  | _, _ => o

/-- The actor handles a call. -/
def handled (A : Actor κ ρ σ μ ε) (o : Office κ ρ σ μ ε) (s : σ) (i : Nat) (rest : List Nat)
    (call : κ) (stage : CallStage ρ) (moment : μ) : Office κ ρ σ μ ε :=
  match A.handle s moment call with
  | none => o.shut
  | some (reply, s') => (o.did s' i rest call moment reply).post A i call stage reply

def step (A : Actor κ ρ σ μ ε) (o : Office κ ρ σ μ ε) :
    Move κ μ ε → Option (Office κ ρ σ μ ε)
  | .invoke call =>
    some { o.setStage o.next call .invoked with
      next := o.next + 1, history := o.history ++ [.invoke o.next] }
  | .refuse i =>
    match o.calls i with
    | some (call, .invoked) => if A.refuses call then some (o.finish i call .refused) else none
    | _ => none
  | .send i =>
    match o.calls i with
    | some (call, .invoked) =>
      if A.refuses call = false ∧ o.actor.isSome ∧ o.mailbox.length < A.capacity then
        some { o.setStage i call .sent with mailbox := o.mailbox ++ [i] }
      else none
    | _ => none
  | .fail i =>
    match o.calls i with
    | some (call, .invoked) =>
      if A.refuses call = false ∧ o.actor.isNone then some (o.finish i call .failed) else none
    | some (call, .sent) =>
      if (A.prompt call).isNone ∧ o.actor.isNone then some (o.finish i call .failed) else none
    | _ => none
  | .detach i =>
    match o.calls i with
    | some (call, .sent) => (A.prompt call).map fun reply => o.finish i call (.replied reply)
    | _ => none
  | .take moment =>
    match o.actor, o.mailbox with
    | some s, i :: rest => (o.calls i).map fun c => o.handled A s i rest c.1 c.2 moment
    | _, _ => none
  | .idle own =>
    o.actor.map fun s => o.idled (A.idle s own) own
  | .receive i =>
    match o.calls i with
    | some (call, .answered reply) => some (o.finish i call (.replied reply))
    | _ => none
  | .abandon i => (o.calls i).map fun c => o.setStage i c.1 .over

end Office

/-- The states that the actor and its callers come to. -/
abbrev Actor.Reaches {κ ρ σ μ ε : Type} (A : Actor κ ρ σ μ ε) (s : σ)
    (o : Office κ ρ σ μ ε) : Prop :=
  Run (Office.step A) (fun _ _ => True) (.new s) o

/-! ## One call after the other -/

section

variable {κ ρ σ μ ε : Type}

/-- The actor does the next piece of work, and notes the reply. -/
def Actor.work (A : Actor κ ρ σ μ ε) (s : σ × List (Nat × ρ)) :
    Work κ μ ε → Option (σ × List (Nat × ρ))
  | .call i call moment =>
    (A.handle s.1 moment call).map fun answer => (answer.2, s.2 ++ [(i, answer.1)])
  | .idle own => some (A.idle s.1 own, s.2)

/-- All by itself. -/
def Actor.sequential (A : Actor κ ρ σ μ ε) (s : σ) (done : List (Work κ μ ε)) :
    Option (σ × List (Nat × ρ)) :=
  done.foldlM A.work (s, [])

/-- The call gets the reply when its turn comes. -/
def Actor.Gives (A : Actor κ ρ σ μ ε) (start : σ) (done : List (Work κ μ ε)) (i : Nat)
    (reply : ρ) : Prop :=
  ∃ before after call moment s told s', done = before ++ .call i call moment :: after ∧
    A.sequential start before = some (s, told) ∧ A.handle s moment call = some (reply, s')

/-- The calls that have been handled, in that order. -/
def Office.order (o : Office κ ρ σ μ ε) : List Nat := o.done.filterMap Work.caller?

/-- The calls that have got into the mailbox, in that order. -/
def Office.queue (o : Office κ ρ σ μ ε) : List Nat := o.order ++ o.mailbox

/-- The caller of `a` has had its reply before `b` began. -/
def RepliedBefore (history : List (Occurrence ρ)) (a b : Nat) : Prop :=
  ∃ early late reply, history = early ++ .invoke b :: late ∧ .ret a (.replied reply) ∈ early

/-- `a` stands in front of `b`. -/
def Precedes (order : List Nat) (a b : Nat) : Prop :=
  ∃ front back, order = front ++ b :: back ∧ a ∈ front

theorem Precedes.append {order more : List Nat} {a b : Nat} (h : Precedes order a b) :
    Precedes (order ++ more) a b := by
  obtain ⟨front, back, rfl, ha⟩ := h
  exact ⟨front, back ++ more, by simp, ha⟩

theorem Precedes.of_append {order more : List Nat} {a b : Nat} (h : Precedes (order ++ more) a b)
    (hb : b ∈ order) (hnodup : (order ++ more).Nodup) : Precedes order a b := by
  obtain ⟨front, back, hsplit, ha⟩ := h
  have hdisjoint := (List.nodup_append.mp hnodup).2.2 b hb
  rcases List.append_eq_append_iff.mp hsplit with ⟨mid, rfl, rfl⟩ | ⟨mid, rfl, hback⟩
  · exact absurd rfl (hdisjoint b (by simp))
  · cases mid with
    | nil =>
      obtain rfl : b :: back = more := hback
      exact absurd rfl (hdisjoint b (List.mem_cons_self ..))
    | cons first mid =>
      cases hback
      exact ⟨front, mid, rfl, ha⟩

theorem RepliedBefore.replied {history : List (Occurrence ρ)} {a b : Nat}
    (h : RepliedBefore history a b) : ∃ reply, .ret a (.replied reply) ∈ history := by
  obtain ⟨early, late, reply, rfl, hmem⟩ := h
  exact ⟨reply, List.mem_append_left _ hmem⟩

/-- What happens later only matters to calls that begin later. -/
theorem RepliedBefore.of_append {history more : List (Occurrence ρ)} {a b : Nat}
    (h : RepliedBefore (history ++ more) a b) (hmore : .invoke b ∉ more) :
    RepliedBefore history a b := by
  obtain ⟨early, late, reply, hsplit, hmem⟩ := h
  rcases List.append_eq_append_iff.mp hsplit with ⟨mid, rfl, rfl⟩ | ⟨mid, rfl, hlate⟩
  · exact absurd (by simp) hmore
  · cases mid with
    | nil =>
      obtain rfl : .invoke b :: late = more := hlate
      exact absurd (List.mem_cons_self ..) hmore
    | cons first mid =>
      cases hlate
      exact ⟨early, mid, reply, rfl, hmem⟩

/-! ## What a move does -/

/-- What a move needs, and what it leads to. -/
inductive Moves (A : Actor κ ρ σ μ ε) (o : Office κ ρ σ μ ε) : Office κ ρ σ μ ε → Prop
  | invoke {call : κ} :
      Moves A o { o.setStage o.next call .invoked with
        next := o.next + 1, history := o.history ++ [.invoke o.next] }
  | send {i : Nat} {call : κ} :
      o.calls i = some (call, .invoked) → A.refuses call = false → o.actor.isSome →
      Moves A o { o.setStage i call .sent with mailbox := o.mailbox ++ [i] }
  /-- The caller gives up or returns without a reply. -/
  | leave {i : Nat} {call : κ} {stage : CallStage ρ} {more : List (Occurrence ρ)} :
      o.calls i = some (call, stage) → (∀ j reply, .ret j (.replied reply) ∉ more) →
      (∀ j, .invoke j ∉ more) →
      Moves A o { o.setStage i call .over with history := o.history ++ more }
  | detach {i : Nat} {call : κ} {reply : ρ} :
      o.calls i = some (call, .sent) → A.prompt call = some reply →
      Moves A o (o.finish i call (.replied reply))
  | fault {s : σ} {i : Nat} {rest : List Nat} {call : κ} {stage : CallStage ρ} {moment : μ} :
      o.actor = some s → o.mailbox = i :: rest → o.calls i = some (call, stage) →
      A.handle s moment call = none → Moves A o o.shut
  | answer {s s' : σ} {i : Nat} {rest : List Nat} {call : κ} {moment : μ} {reply : ρ} :
      o.actor = some s → o.mailbox = i :: rest → o.calls i = some (call, .sent) →
      A.prompt call = none → A.handle s moment call = some (reply, s') →
      Moves A o ((o.did s' i rest call moment reply).setStage i call (.answered reply))
  /-- Nobody waits for the reply. -/
  | keep {s s' : σ} {i : Nat} {rest : List Nat} {call : κ} {stage : CallStage ρ} {moment : μ}
      {reply : ρ} :
      o.actor = some s → o.mailbox = i :: rest → o.calls i = some (call, stage) →
      A.handle s moment call = some (reply, s') →
      Moves A o (o.did s' i rest call moment reply)
  | idle {s : σ} {own : ε} :
      o.actor = some s → Moves A o (o.idled (A.idle s own) own)
  | receive {i : Nat} {call : κ} {reply : ρ} :
      o.calls i = some (call, .answered reply) → Moves A o (o.finish i call (.replied reply))

namespace ActorLemmas

variable {A : Actor κ ρ σ μ ε} {o o' : Office κ ρ σ μ ε}

theorem moves_finish {i : Nat} {call : κ} {stage : CallStage ρ} {outcome : Outcome ρ}
    (hcall : o.calls i = some (call, stage)) (houtcome : ∀ reply, outcome ≠ .replied reply) :
    Moves A o (o.finish i call outcome) := by
  refine .leave hcall (fun j reply hmem => ?_) (fun j hmem => ?_)
  · cases List.mem_singleton.mp hmem
    exact houtcome reply rfl
  · cases List.mem_singleton.mp hmem

theorem moves_handled {s : σ} {i : Nat} {rest : List Nat} {call : κ} {stage : CallStage ρ}
    {moment : μ} (hactor : o.actor = some s) (hmailbox : o.mailbox = i :: rest)
    (hcall : o.calls i = some (call, stage)) :
    Moves A o (o.handled A s i rest call stage moment) := by
  unfold Office.handled
  split
  · next hhandle => exact .fault hactor hmailbox hcall hhandle
  · next reply s' hhandle =>
    unfold Office.post
    split
    · exact .answer hactor hmailbox hcall ‹_› hhandle
    · exact .keep hactor hmailbox hcall hhandle

theorem moves_of_step {move : Move κ μ ε} (h : o.step A move = some o') : Moves A o o' := by
  cases move with
  | invoke call =>
    cases h
    exact .invoke
  | refuse i =>
    dsimp only [Office.step] at h
    split at h
    · next hcall =>
      split at h <;> cases h
      exact moves_finish hcall (fun _ => nofun)
    · cases h
  | send i =>
    dsimp only [Office.step] at h
    split at h
    · next hcall =>
      split at h
      · next hroom =>
        cases h
        exact .send hcall hroom.1 hroom.2.1
      · cases h
    · cases h
  | fail i =>
    dsimp only [Office.step] at h
    split at h
    · next hcall =>
      split at h <;> cases h
      exact moves_finish hcall (fun _ => nofun)
    · next hcall =>
      split at h <;> cases h
      exact moves_finish hcall (fun _ => nofun)
    · cases h
  | detach i =>
    dsimp only [Office.step] at h
    split at h
    · next hcall =>
      obtain ⟨reply, hprompt, rfl⟩ := Option.map_eq_some_iff.mp h
      exact .detach hcall hprompt
    · cases h
  | take moment =>
    dsimp only [Office.step] at h
    split at h
    · next hactor hmailbox =>
      obtain ⟨⟨call, stage⟩, hcall, rfl⟩ := Option.map_eq_some_iff.mp h
      exact moves_handled hactor hmailbox hcall
    · cases h
  | idle own =>
    obtain ⟨s, hactor, rfl⟩ := Option.map_eq_some_iff.mp h
    exact .idle hactor
  | receive i =>
    dsimp only [Office.step] at h
    split at h
    · next hcall =>
      cases h
      exact .receive hcall
    · cases h
  | abandon i =>
    obtain ⟨⟨call, stage⟩, hcall, rfl⟩ := Option.map_eq_some_iff.mp h
    have hmoves : Moves A o { o.setStage i call .over with history := o.history ++ [] } :=
      .leave hcall (by simp) (by simp)
    rwa [List.append_nil] at hmoves

/-! ### The work is done in one order -/

theorem sequential_snoc (s : σ) (done : List (Work κ μ ε)) (work : Work κ μ ε) :
    A.sequential s (done ++ [work]) = (A.sequential s done).bind fun t => A.work t work := by
  simp [Actor.sequential, List.foldlM_append]

/-- The present state is that of doing the work one after the other. -/
def Ordered (A : Actor κ ρ σ μ ε) (start : σ) (o : Office κ ρ σ μ ε) : Prop :=
  ∃ s, A.sequential start o.done = some (s, o.replies) ∧ ∀ s' ∈ o.actor, s' = s

theorem Ordered.handle {start s s' : σ} {i : Nat} {call : κ} {moment : μ} {reply : ρ}
    (h : Ordered A start o) (hactor : o.actor = some s)
    (hhandle : A.handle s moment call = some (reply, s')) :
    A.sequential start (o.done ++ [.call i call moment]) =
      some (s', o.replies ++ [(i, reply)]) := by
  obtain ⟨_, hdone, hstate⟩ := h
  obtain rfl := hstate s hactor
  rw [sequential_snoc, hdone, Option.bind_some]
  show (A.handle s moment call).map _ = _
  rw [hhandle]
  rfl

/-- A call gets into the mailbox once, and only if it is not refused. -/
structure Queued (A : Actor κ ρ σ μ ε) (o : Office κ ρ σ μ ε) : Prop where
  nodup : o.queue.Nodup
  sent : ∀ i ∈ o.queue, ∃ call stage, o.calls i = some (call, stage) ∧ stage ≠ .invoked ∧
    A.refuses call = false
  fresh : ∀ i, o.next ≤ i → o.calls i = none

theorem queue_shut : o.shut.queue = o.order := List.append_nil _

theorem queue_did {i : Nat} {rest : List Nat} {call : κ} {moment : μ} (s : σ) (reply : ρ)
    (hmailbox : o.mailbox = i :: rest) : (o.did s i rest call moment reply).queue = o.queue := by
  show (o.done ++ [Work.call i call moment]).filterMap Work.caller? ++ rest = o.order ++ o.mailbox
  rw [List.filterMap_append, List.append_assoc, hmailbox]
  rfl

theorem queue_idled {s : σ} {own : ε} : (o.idled s own).queue = o.queue := by
  show (o.done ++ [Work.idle own]).filterMap Work.caller? ++ o.mailbox = o.order ++ o.mailbox
  rw [List.filterMap_append]
  exact congrArg (· ++ o.mailbox) (List.append_nil _)

theorem order_subset : o.order ⊆ o.queue := List.subset_append_left _ _

theorem calls_setStage (i : Nat) (call : κ) (stage : CallStage ρ) (j : Nat) :
    (o.setStage i call stage).calls j = if j = i then some (call, stage) else o.calls j :=
  Function.update_apply ..

theorem Queued.not_mem {i : Nat} {call : κ} (h : Queued A o)
    (hcall : o.calls i = some (call, .invoked)) : i ∉ o.queue := by
  intro hmem
  obtain ⟨_, stage, hstage, hsent, -⟩ := h.sent i hmem
  rw [hcall] at hstage
  cases hstage
  exact hsent rfl

theorem Queued.next_not_mem (h : Queued A o) : o.next ∉ o.queue := by
  intro hmem
  obtain ⟨_, _, hcall, -⟩ := h.sent _ hmem
  rw [h.fresh _ (Nat.le_refl _)] at hcall
  cases hcall

theorem Queued.lt_next {i : Nat} {c : κ × CallStage ρ} (h : Queued A o)
    (hcall : o.calls i = some c) :
    i < o.next := by
  by_contra hge
  rw [h.fresh i (Nat.le_of_not_lt hge)] at hcall
  cases hcall

/-- A call that has begun gets further. -/
theorem Queued.later {i : Nat} {call : κ} {stage : CallStage ρ} (h : Queued A o)
    (hcall : o.calls i = some (call, stage)) (stage' : CallStage ρ) (hlater : stage' ≠ .invoked)
    (hqueue : o'.queue = o.queue) (hcalls : o'.calls = (o.setStage i call stage').calls)
    (hnext : o'.next = o.next) : Queued A o' := by
  refine ⟨hqueue ▸ h.nodup, fun j hmem => ?_, fun j hle => ?_⟩
  · rw [hcalls, calls_setStage]
    obtain ⟨call', stage'', hj, hsent⟩ := h.sent j (hqueue ▸ hmem)
    split
    · next heq =>
      subst heq
      rw [hcall] at hj
      cases hj
      exact ⟨call, stage', rfl, hlater, hsent.2⟩
    · exact ⟨call', stage'', hj, hsent⟩
  · rw [hcalls, calls_setStage, if_neg (Nat.ne_of_gt (Nat.lt_of_lt_of_le (h.lt_next hcall)
      (hnext ▸ hle)))]
    exact h.fresh j (hnext ▸ hle)

theorem queued_moves (h : Moves A o o') (hqueued : Queued A o) : Queued A o' := by
  cases h with
  | @invoke call =>
    refine ⟨hqueued.nodup, fun i hmem => ?_, fun i hle => ?_⟩
    · show ∃ call' stage, (o.setStage o.next call .invoked).calls i = some (call', stage) ∧ _
      rw [calls_setStage, if_neg]
      · exact hqueued.sent i hmem
      · rintro rfl
        exact hqueued.next_not_mem hmem
    · show (o.setStage o.next call .invoked).calls i = none
      have hlt : o.next < i := hle
      rw [calls_setStage, if_neg (Nat.ne_of_gt hlt)]
      exact hqueued.fresh i (Nat.le_of_lt hlt)
  | @send i call hcall hadmitted _ =>
    have hqueue : Office.queue { o.setStage i call .sent with mailbox := o.mailbox ++ [i] }
        = o.queue ++ [i] := (List.append_assoc ..).symm
    refine ⟨?_, fun j hmem => ?_, fun j hle => ?_⟩
    · rw [hqueue]
      exact List.nodup_append_comm.mp (List.nodup_cons.mpr ⟨hqueued.not_mem hcall, hqueued.nodup⟩)
    · show ∃ call' stage, (o.setStage i call .sent).calls j = some (call', stage) ∧ _
      rw [calls_setStage]
      split
      · exact ⟨call, .sent, rfl, nofun, hadmitted⟩
      · next hj =>
        rw [hqueue] at hmem
        rcases List.mem_append.mp hmem with hmem | hmem
        · exact hqueued.sent j hmem
        · exact absurd (List.mem_singleton.mp hmem) hj
    · show (o.setStage i call .sent).calls j = none
      rw [calls_setStage, if_neg (Nat.ne_of_gt (Nat.lt_of_lt_of_le (hqueued.lt_next hcall) hle))]
      exact hqueued.fresh j hle
  | leave hcall => exact hqueued.later hcall .over nofun rfl rfl rfl
  | detach hcall => exact hqueued.later hcall .over nofun rfl rfl rfl
  | receive hcall => exact hqueued.later hcall .over nofun rfl rfl rfl
  | fault =>
    refine ⟨?_, fun i hmem => ?_, hqueued.fresh⟩
    · rw [queue_shut]
      exact hqueued.nodup.sublist (List.sublist_append_left _ _)
    · rw [queue_shut] at hmem
      exact hqueued.sent i (order_subset hmem)
  | @answer _ s' _ _ _ _ reply _ hmailbox hcall =>
    exact hqueued.later hcall (.answered reply) nofun (queue_did s' reply hmailbox) rfl
      rfl
  | keep _ hmailbox =>
    refine ⟨?_, fun i hmem => ?_, hqueued.fresh⟩
    · rw [queue_did _ _ hmailbox]
      exact hqueued.nodup
    · rw [queue_did _ _ hmailbox] at hmem
      exact hqueued.sent i hmem
  | idle =>
    refine ⟨?_, fun i hmem => ?_, hqueued.fresh⟩
    · rw [queue_idled]
      exact hqueued.nodup
    · rw [queue_idled] at hmem
      exact hqueued.sent i hmem

theorem queued {start : σ} (h : A.Reaches start o) : Queued A o :=
  h.invariant ⟨List.nodup_nil, by simp [Office.new, Office.queue, Office.order], fun _ _ => rfl⟩
    fun _ _ hstep hqueued => queued_moves (moves_of_step hstep) hqueued

/-! ### What callers are told -/

/-- The replies that callers have, or are going to get. -/
structure Told (A : Actor κ ρ σ μ ε) (o : Office κ ρ σ μ ε) : Prop where
  answered : ∀ i call reply, o.calls i = some (call, .answered reply) → (i, reply) ∈ o.replies
  prompt : ∀ i reply, (i, reply) ∈ o.replies →
    ∃ call stage, o.calls i = some (call, stage) ∧ ∀ told, A.prompt call = some told → reply = told
  returned : ∀ i reply, .ret i (.replied reply) ∈ o.history →
    ∃ call, o.calls i = some (call, .over) ∧
      (A.prompt call = none ∧ (i, reply) ∈ o.replies ∨ A.prompt call = some reply)
  waiting : ∀ i call reply, o.calls i = some (call, .answered reply) → A.prompt call = none

/-- One call gets from `stage` to `stage'`, and nobody else is told anything. -/
theorem Told.set {i : Nat} {call : κ} {stage : CallStage ρ} (h : Told A o)
    (hcall : o.calls i = some (call, stage)) (stage' : CallStage ρ)
    (hcalls : o'.calls = (o.setStage i call stage').calls)
    (hold : o.replies ⊆ o'.replies)
    (hnew : ∀ j reply, (j, reply) ∈ o'.replies → (j, reply) ∈ o.replies ∨
      j = i ∧ ∀ told, A.prompt call = some told → reply = told)
    (hhistory : ∀ j reply, .ret j (.replied reply) ∈ o'.history →
      .ret j (.replied reply) ∈ o.history ∨ j = i ∧ stage' = .over ∧
        (A.prompt call = none ∧ (i, reply) ∈ o'.replies ∨ A.prompt call = some reply))
    (hanswered : ∀ reply, stage' = .answered reply →
      (i, reply) ∈ o'.replies ∧ A.prompt call = none)
    (hover : stage = .over → stage' = .over) : Told A o' := by
  have hlookup : ∀ j, o'.calls j = if j = i then some (call, stage') else o.calls j :=
    fun j => hcalls ▸ calls_setStage i call stage' j
  refine ⟨fun j call' reply hj => ?_, fun j reply hj => ?_, fun j reply hj => ?_,
    fun j call' reply hj => ?_⟩
  · rw [hlookup] at hj
    split at hj
    · next heq =>
      cases hj
      exact heq ▸ (hanswered reply rfl).1
    · exact hold (h.answered j call' reply hj)
  · rw [hlookup]
    rcases hnew j reply hj with hj | ⟨rfl, hprompt⟩
    · obtain ⟨call', stage'', hj', hprompt⟩ := h.prompt j reply hj
      split
      · next heq =>
        subst heq
        rw [hcall] at hj'
        cases hj'
        exact ⟨call, stage', rfl, hprompt⟩
      · exact ⟨call', stage'', hj', hprompt⟩
    · rw [if_pos rfl]
      exact ⟨call, stage', rfl, hprompt⟩
  · rw [hlookup]
    rcases hhistory j reply hj with hj | ⟨rfl, rfl, htold⟩
    · obtain ⟨call', hj', htold⟩ := h.returned j reply hj
      have htold' : A.prompt call' = none ∧ (j, reply) ∈ o'.replies ∨ A.prompt call' = some reply :=
        htold.imp_left fun hreply => ⟨hreply.1, hold hreply.2⟩
      split
      · next heq =>
        subst heq
        rw [hcall] at hj'
        cases hj'
        exact ⟨call, by rw [hover rfl], htold'⟩
      · exact ⟨call', hj', htold'⟩
    · rw [if_pos rfl]
      exact ⟨call, rfl, htold⟩
  · rw [hlookup] at hj
    split at hj
    · cases hj
      exact (hanswered reply rfl).2
    · exact h.waiting j call' reply hj

theorem mem_snoc_reply {i j : Nat} {reply reply' : ρ} {call : κ}
    (hprompt : ∀ told, A.prompt call = some told → reply = told)
    (h : (j, reply') ∈ o.replies ++ [(i, reply)]) :
    (j, reply') ∈ o.replies ∨ j = i ∧ ∀ told, A.prompt call = some told → reply' = told := by
  refine (List.mem_append.mp h).imp_right fun hlast => ?_
  cases List.mem_singleton.mp hlast
  exact ⟨rfl, hprompt⟩

theorem mem_snoc_ret {i j : Nat} {reply reply' : ρ} {call : κ}
    (htold : A.prompt call = none ∧ (i, reply) ∈ o.replies ∨ A.prompt call = some reply)
    (h : Occurrence.ret j (.replied reply') ∈ o.history ++ [.ret i (.replied reply)]) :
    .ret j (.replied reply') ∈ o.history ∨ j = i ∧ CallStage.over = (.over : CallStage ρ) ∧
      (A.prompt call = none ∧ (i, reply') ∈ o.replies ∨ A.prompt call = some reply') := by
  refine (List.mem_append.mp h).imp_right fun hlast => ?_
  cases List.mem_singleton.mp hlast
  exact ⟨rfl, rfl, htold⟩

theorem told_moves (h : Moves A o o') (hqueued : Queued A o) (htold : Told A o) : Told A o' := by
  cases h with
  | @invoke call =>
    have hlookup : ∀ j c, o.calls j = some c →
        (o.setStage o.next call .invoked).calls j = some c := by
      intro j c hj
      rw [calls_setStage, if_neg (Nat.ne_of_lt (hqueued.lt_next hj)), hj]
    have hback : ∀ j call' reply,
        (o.setStage o.next call .invoked).calls j = some (call', .answered reply) →
        o.calls j = some (call', .answered reply) := by
      intro j call' reply hj
      rw [calls_setStage] at hj
      split at hj
      · cases hj
      · exact hj
    refine ⟨fun j call' reply hj => htold.answered j call' reply (hback _ _ _ hj),
      fun j reply hj => ?_, fun j reply hj => ?_,
      fun j call' reply hj => htold.waiting j call' reply (hback _ _ _ hj)⟩
    · obtain ⟨call', stage, hj, hprompt⟩ := htold.prompt j reply hj
      exact ⟨call', stage, hlookup _ _ hj, hprompt⟩
    · rcases List.mem_append.mp hj with hj | hlast
      · obtain ⟨call', hj, hreply⟩ := htold.returned j reply hj
        exact ⟨call', hlookup _ _ hj, hreply⟩
      · cases List.mem_singleton.mp hlast
  | send hcall =>
    exact htold.set hcall .sent rfl (List.Subset.refl _) (fun _ _ => .inl)
      (fun _ _ => .inl) nofun nofun
  | leave hcall hnone =>
    refine htold.set hcall .over rfl (List.Subset.refl _) (fun _ _ => .inl)
      (fun j reply hj => .inl ?_) nofun (fun _ => rfl)
    rcases List.mem_append.mp hj with hj | hj
    · exact hj
    · exact absurd hj (hnone j reply)
  | detach hcall hprompt =>
    exact htold.set hcall .over rfl (List.Subset.refl _) (fun _ _ => .inl)
      (fun _ _ => mem_snoc_ret (.inr hprompt)) nofun (fun _ => rfl)
  | receive hcall =>
    exact htold.set hcall .over rfl (List.Subset.refl _) (fun _ _ => .inl)
      (fun _ _ => mem_snoc_ret (.inl ⟨htold.waiting _ _ _ hcall, htold.answered _ _ _ hcall⟩))
      nofun (fun _ => rfl)
  | fault | idle => exact ⟨htold.answered, htold.prompt, htold.returned, htold.waiting⟩
  | @answer s s' i rest call moment reply _ _ hcall hprompt hhandle =>
    refine htold.set hcall (.answered reply) rfl (List.subset_append_left _ _)
      (fun _ _ => mem_snoc_reply fun told hsome => ?_) (fun _ _ => .inl) ?_ nofun
    · rw [hprompt] at hsome
      cases hsome
    · rintro _ ⟨⟩
      exact ⟨List.mem_append_right _ (List.mem_singleton_self _), hprompt⟩
  | @keep s s' i rest call stage moment reply _ _ hcall hhandle =>
    refine htold.set hcall stage ?_ (List.subset_append_left _ _)
      (fun _ _ => mem_snoc_reply fun told hsome => A.prompt_eq hsome hhandle) (fun _ _ => .inl)
      ?_ id
    · exact (Function.update_eq_self_iff.mpr hcall.symm).symm
    · rintro reply' rfl
      exact ⟨List.mem_append_left _ (htold.answered _ _ _ hcall), htold.waiting _ _ _ hcall⟩

theorem told {start : σ} (h : A.Reaches start o) : Told A o :=
  h.invariant ⟨nofun, nofun, nofun, nofun⟩ fun hrun _ hstep htold =>
    told_moves (moves_of_step hstep) (queued hrun) htold

/-! ### The order is that of time -/

structure Timely (o : Office κ ρ σ μ ε) : Prop where
  posted : o.actor.isSome → ∀ i call, o.calls i = some (call, .sent) → i ∈ o.queue
  replied : o.actor.isSome → ∀ i reply, .ret i (.replied reply) ∈ o.history → i ∈ o.queue
  first : ∀ a b, RepliedBefore o.history a b → b ∈ o.queue → Precedes o.queue a b

/-- One call gets to a stage in which it is not in the mailbox for the first time. -/
theorem Timely.set {i : Nat} {call : κ} {more : List (Occurrence ρ)} (h : Timely o)
    (stage : CallStage ρ) (hactor : o'.actor.isSome → o.actor.isSome) (hqueue : o'.queue = o.queue)
    (hcalls : o'.calls = (o.setStage i call stage).calls) (hsent : stage ≠ .sent)
    (hhistory : o'.history = o.history ++ more)
    (hreplied : o.actor.isSome → ∀ j reply, .ret j (.replied reply) ∈ more → j ∈ o.queue)
    (hbegun : ∀ b ∈ o.queue, .invoke b ∉ more) : Timely o' := by
  refine ⟨fun halive j call' hj => ?_, fun halive j reply hj => ?_, fun a b hbefore hb => ?_⟩
  · rw [hcalls, calls_setStage] at hj
    split at hj
    · cases hj
      exact absurd rfl hsent
    · exact hqueue ▸ h.posted (hactor halive) j call' hj
  · rw [hhistory] at hj
    rw [hqueue]
    rcases List.mem_append.mp hj with hj | hj
    · exact h.replied (hactor halive) j reply hj
    · exact hreplied (hactor halive) j reply hj
  · rw [hhistory] at hbefore
    rw [hqueue] at hb ⊢
    exact h.first a b (hbefore.of_append (hbegun b hb)) hb

end ActorLemmas

open ActorLemmas

end

end Foundation
