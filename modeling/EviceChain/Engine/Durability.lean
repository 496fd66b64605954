import EviceChain.Engine.Recovery

/-!
# What the log promises

`handle_command` writes the entry of an order or a cancel before it executes it.
What `write_entry` returns is reported and otherwise ignored, so the promise is
as good as the disk: a failure pattern leaves the log ahead of the book for
every sequence of commands if and only if it has no failure (`writeAhead_iff`).
An order that was never written rests in the book of `unlogged_order`.

A bundle is a loop over its orders with one record each. That no other command
comes between them makes it atomic for those who watch the book. It is not
atomic on disk: a crash may leave the first of its records. The book rebuilt is
the one before the bundle or the one after it, whatever its orders are, if and
only if none or all of its records were left (`bundle_atomic_iff`);
`bundle_torn` is half a bundle.
-/

namespace EviceChain.Engine

open Foundation ProcessorLemmas RecoveryLemmas

/-! ## Write-ahead -/

section WriteAhead

variable (S : Type → Type) [SlabLike S]

/-- In a run from `disk`, an entry changes the book only if it was written, and a
processor that starts on the log has the live book. -/
structure WriteAhead (profile : Profile) (io : Nat → WriteOutcome) (disk : Option (List UInt8))
    (inputs : List Input) : Prop where
  effects : ∀ p : MarketProcessor S, MarketProcessor.new disk = .ok p →
    ∀ done entry, done ++ [entry] <+: logged inputs →
    ∀ s s', done.foldlM (execute io) (p.wal, p.book) = .ok s → execute io s entry = .ok s' →
      s'.2 ≠ s.2 → (s.1.writeEntry io entry).1 = true
  rebuilt : ∀ p p' : MarketProcessor S, MarketProcessor.new disk = .ok p →
    p.run profile io inputs = .ok p' →
    ∃ q : MarketProcessor S, MarketProcessor.new (some p'.wal.file) = .ok q ∧ q.book = p'.book

end WriteAhead

/-- The entry of an order at the worst price of its side. -/
def restingEntry (side : Side) : LogEntry := .place 0 0 side (worstPrice side) 1

namespace DurabilityLemmas

theorem written_iff {io : Nat → WriteOutcome} {wal : WalHandler} {entry : LogEntry} :
    (wal.writeEntry io entry).1 = true ↔ io wal.calls = .ok := by
  unfold WalHandler.writeEntry
  dsimp only
  split
  · next hio => exact ⟨fun _ => hio, fun _ => rfl⟩
  · next hio => exact ⟨fun h => (Bool.false_ne_true h).elim, fun h => by rw [h] at hio; cases hio⟩

theorem calls_writeEntry (io : Nat → WriteOutcome) (wal : WalHandler) (entry : LogEntry) :
    (wal.writeEntry io entry).2.calls = wal.calls + 1 := by
  unfold WalHandler.writeEntry
  dsimp only
  split <;> rfl

variable {S : Type → Type} [SlabLike S]

theorem calls_executeAll {io : Nat → WriteOutcome} {entries : List LogEntry}
    {s s' : WalHandler × OrderBook S} (h : entries.foldlM (execute io) s = .ok s') :
    s'.1.calls = s.1.calls + entries.length := by
  induction entries generalizing s with
  | nil =>
    cases h
    rfl
  | cons entry entries ih =>
    rw [List.foldlM_cons] at h
    obtain ⟨mid, hentry, hrest⟩ := bind_eq_ok.mp h
    obtain ⟨book, -, heq⟩ := bind_eq_ok.mp hentry
    cases heq
    rw [ih hrest, calls_writeEntry, List.length_cons, Nat.add_right_comm, Nat.add_assoc]

theorem calls_new {disk : Option (List UInt8)} {p : MarketProcessor S}
    (h : MarketProcessor.new disk = .ok p) : p.wal.calls = 0 := by
  obtain ⟨book, -, heq⟩ := bind_eq_ok.mp h
  cases heq
  rfl

/-- It rests if nothing stands against it. -/
theorem replayEntry_resting {book : OrderBook S} (hreach : Reachable book) {side : Side}
    (hfree : ∀ maker ∈ book.flat side.opposite,
      isMatchable side maker.price (worstPrice side) = false) :
    ∃ book', replayEntry book (restingEntry side) = .ok book' ∧ Reachable book' ∧
      book'.flat side.opposite = book.flat side.opposite ∧
      book'.flat.count 0 = book.flat.count 0 + 1 := by
  obtain ⟨book', hentry, hreach'⟩ := replayEntry_reachable hreach (restingEntry side)
  have hflat := replayEntry_place hreach hentry
  refine ⟨book', hentry, hreach', ?_, ?_⟩
  · rw [hflat, Flat.place_opposite, walk_unreached hfree]
  · rw [hflat]
    exact place_count_rest book.flat 0 0 side (worstPrice side) (by decide) hfree

/-- So do `n` of them. -/
theorem replay_resting {book : OrderBook S} (hreach : Reachable book) {side : Side}
    (hfree : ∀ maker ∈ book.flat side.opposite,
      isMatchable side maker.price (worstPrice side) = false) (n : Nat) :
    ∃ book', (List.replicate n (restingEntry side)).foldlM replayEntry book = .ok book' ∧
      book'.flat.count 0 = book.flat.count 0 + n := by
  induction n generalizing book with
  | zero => exact ⟨book, rfl, rfl⟩
  | succ n ih =>
    obtain ⟨mid, hentry, hreach', hopposite, hcount⟩ := replayEntry_resting hreach hfree
    obtain ⟨book', hrest, hcount'⟩ := ih hreach' (by rwa [hopposite])
    refine ⟨book', ?_, ?_⟩
    · rw [List.replicate_succ, List.foldlM_cons, hentry]
      exact hrest
    · rw [hcount', hcount, Nat.add_right_comm, Nat.add_assoc]

theorem logged_cancels (n : Nat) :
    logged (List.replicate n (.command 0 (.cancelOrder 0 0))) =
      List.replicate n (.cancel 0 0) := by
  induction n with
  | zero => rfl
  | succ n ih =>
    rw [List.replicate_succ, List.replicate_succ, ← ih]
    rfl

end DurabilityLemmas

open DurabilityLemmas

variable {S : Type → Type} [SlabLike S]

/-- On a well-formed log (or none), the log is ahead of the book in the runs of all
commands exactly if no write fails. A failing write is tied to a resting order by
cancels before it that find nothing. -/
theorem writeAhead_iff (profile : Profile) (io : Nat → WriteOutcome) {disk : Option (List UInt8)}
    {es : List LogEntry} (hdisk : disk.getD [] = entryCodec.encodeAll es) :
    (∀ inputs, WriteAhead S profile io disk inputs) ↔ ∀ n, io n = .ok := by
  obtain ⟨p, hp, hlogged⟩ := Logged.new (S := S) disk
  constructor
  · intro hall n
    obtain ⟨s, hs, hreach⟩ := executeAll_reachable (s := (p.wal, p.book)) io hlogged.reachable
      (List.replicate n (.cancel 0 0))
    obtain ⟨side, hfree⟩ := exists_side_unreached hreach
    obtain ⟨book, hentry, -, -, hcount⟩ := replayEntry_resting hreach hfree
    have hcalls : s.1.calls = n := by
      rw [calls_executeAll hs, calls_new hp, List.length_replicate, Nat.zero_add]
    have hexec : execute io s (restingEntry side) =
        .ok ((s.1.writeEntry io (restingEntry side)).2, book) := by
      rw [execute, hentry]
      rfl
    have hchanged : book ≠ s.2 := by
      rintro rfl
      exact Nat.ne_of_lt (Nat.lt_succ_self _) hcount
    have hlog : logged (List.replicate n (.command 0 (.cancelOrder 0 0)) ++
        [.command 0 (.placeOrder 0 0 side (worstPrice side) 1)]) =
          List.replicate n (.cancel 0 0) ++ [restingEntry side] := by
      rw [logged_snoc, logged_cancels]
      rfl
    have hwritten := (hall _).effects p hp _ _ (by rw [hlog]) s _ hs hexec hchanged
    rwa [written_iff, hcalls] at hwritten
  · intro hio inputs
    refine ⟨fun p _ done entry _ s s' _ _ _ => written_iff.mpr (hio _), ?_⟩
    intro q q' hq hrun
    rw [hp] at hq
    cases hq
    exact (hlogged.run hio hrun).restart hdisk

/-- A fresh start on a disk that never fails. -/
theorem writeAhead_iff_fresh :
    (none : Option (List UInt8)).getD [] = entryCodec.encodeAll [] ∧
      ∀ inputs, WriteAhead StackSlab .checked (fun _ => .ok) none inputs := by
  have hdisk : (none : Option (List UInt8)).getD [] = entryCodec.encodeAll [] := rfl
  exact ⟨hdisk, (writeAhead_iff .checked (fun _ => .ok) hdisk).mpr fun _ => rfl⟩

/-- The first write fails with nothing on disk. The order rests in the live book and in
no book that is rebuilt. -/
theorem unlogged_order :
    ∃ p p' q : MarketProcessor StackSlab,
      MarketProcessor.new none = .ok p ∧
      p.run .checked (fun _ => .err 0 0) [.command 0 (.placeOrder 7 1 .ask 100 10)] = .ok p' ∧
      MarketProcessor.new (some p'.wal.file) = .ok q ∧
      p'.book.flat .ask = [⟨1, 7, 100, 10, .ask, 0⟩] ∧ q.book.flat .ask = [] ∧
      ¬ WriteAhead StackSlab .checked (fun _ => .err 0 0) none
        [.command 0 (.placeOrder 7 1 .ask 100 10)] := by
  refine ⟨_, _, _, rfl, rfl, rfl, rfl, rfl, fun h => ?_⟩
  obtain ⟨q, hq, hbook⟩ := h.rebuilt _ _ rfl rfl
  have hasks : q.book.flat .ask = [] := by
    cases hq
    rfl
  rw [hbook] at hasks
  revert hasks
  decide

/-! ## Bundles -/

/-- `p` handles a bundle and goes on; a crash then leaves `j` of the records of the
bundle. The book rebuilt is the one before the bundle or the one after it. -/
def AllOrNone (profile : Profile) (now : Nat) (p : MarketProcessor S)
    (orders : List BundleRequest) (j : Nat) : Prop :=
  ∀ response p' after p'' b,
    handleCommand profile (fun _ => .ok) now p (.executeBundle orders) = .ok (response, p') →
    p'.run profile (fun _ => .ok) after = .ok p'' → b <+: p''.wal.file →
    (entryCodec.readAll b).length = (entryCodec.readAll p.wal.file).length + j →
    ∃ q : MarketProcessor S, MarketProcessor.new (some b) = .ok q ∧
      (q.book = p.book ∨ q.book = p'.book)

namespace DurabilityLemmas

variable {p p' : MarketProcessor S} {es : List LogEntry}

theorem logged_command {profile : Profile} {now : Nat} (h : Logged [] es p.wal p.book)
    {cmd : Command} {response : Response}
    (hcmd : handleCommand profile (fun _ => .ok) now p cmd = .ok (response, p')) :
    Logged [] (es ++ cmd.entries) p'.wal p'.book := by
  rcases command_executes profile (fun _ => .ok) now h.reachable cmd with
    ⟨_, _, hcmd', hall⟩ | ⟨-, hfault⟩
  · rw [hcmd] at hcmd'
    cases hcmd'
    exact h.executeAll (fun _ => rfl) hall
  · rw [hcmd] at hfault
    cases hfault

theorem readAll_file (h : Logged [] es p.wal p.book) : entryCodec.readAll p.wal.file = es := by
  rw [h.file, List.nil_append, entryCodec.readAll_whole]

theorem replay_file (h : Logged [] es p.wal p.book) : replay es = .ok p.book := h.replayed

/-- What a prefix of the log is read as decides the book. -/
theorem new_of_readAll {b : List UInt8} {book : OrderBook S}
    (h : replay (entryCodec.readAll b) = .ok book) :
    ∃ q : MarketProcessor S, MarketProcessor.new (some b) = .ok q ∧ q.book = book := by
  obtain ⟨q, hq, hlogged⟩ := Logged.new (S := S) (some b)
  have hbook := hlogged.replayed
  rw [List.append_nil, Option.getD_some, h] at hbook
  exact ⟨q, hq, (Except.ok.inj hbook).symm⟩

theorem bundle_handled (profile : Profile) (io : Nat → WriteOutcome) (now : Nat)
    (h : Reachable p.book) (orders : List BundleRequest) :
    ∃ response p', handleCommand profile io now p (.executeBundle orders) = .ok (response, p') := by
  obtain ⟨s, hs, -⟩ := executeAll_reachable (s := (p.wal, p.book)) io h
    (Command.executeBundle orders).entries
  obtain ⟨events, hloop⟩ := bundle_executes orders [] hs
  rw [handleCommand, hloop]
  exact ⟨_, _, rfl⟩

/-- Of a bundle of `n` resting orders, a crash between them leaves `j` resting. -/
theorem bundle_of_resting (h : Logged [] es p.wal p.book) {profile : Profile} {side : Side}
    (hfree : ∀ maker ∈ p.book.flat side.opposite,
      isMatchable side maker.price (worstPrice side) = false) {n j : Nat} (hj : j ≤ n)
    (hatomic : AllOrNone profile 0 p (List.replicate n ⟨0, 0, side, worstPrice side, 1⟩) j) :
    j = 0 ∨ j = n := by
  have hentries : (Command.executeBundle
      (List.replicate n ⟨0, 0, side, worstPrice side, 1⟩)).entries =
        List.replicate n (restingEntry side) := List.map_replicate
  have hreplay : ∀ i, ∃ book : OrderBook S,
      replay (es ++ List.replicate i (restingEntry side)) = .ok book ∧
        book.flat.count 0 = p.book.flat.count 0 + i := by
    intro i
    obtain ⟨book, hbook, hcount⟩ := replay_resting h.reachable hfree i
    refine ⟨book, ?_, hcount⟩
    rw [replay, List.foldlM_append, ← replay, replay_file h]
    exact hbook
  obtain ⟨response, p', hcmd⟩ := bundle_handled profile (fun _ => .ok) 0 h.reachable
    (List.replicate n ⟨0, 0, side, worstPrice side, 1⟩)
  have hbundle := logged_command h hcmd
  rw [hentries] at hbundle
  -- the crash leaves the first `j` records of the bundle
  have hprefix : entryCodec.encodeAll (es ++ List.replicate j (restingEntry side)) <+:
      p'.wal.file := by
    rw [hbundle.file, List.nil_append, ← Nat.add_sub_cancel' hj, List.replicate_add,
      ← List.append_assoc]
    exact ⟨_, List.flatMap_append.symm⟩
  have hread := entryCodec.readAll_whole (es ++ List.replicate j (restingEntry side))
  obtain ⟨q, hq, hbook⟩ := hatomic response p' [] p' _ hcmd rfl hprefix (by
    rw [hread, readAll_file h, List.length_append, List.length_replicate])
  obtain ⟨bookj, hbookj, hcountj⟩ := hreplay j
  obtain ⟨bookn, hbookn, hcountn⟩ := hreplay n
  obtain ⟨q', hq', rfl⟩ := new_of_readAll (hread.symm ▸ hbookj)
  rw [hq] at hq'
  cases hq'
  have hp' : p'.book = bookn := Except.ok.inj ((replay_file hbundle).symm.trans hbookn)
  rcases hbook with hbook | hbook
  · rw [hbook] at hcountj
    omega
  · rw [hbook, hp', hcountn] at hcountj
    omega

end DurabilityLemmas

/-- For every state reached, and every bundle of `n` orders handled in it: the crash that
leaves `j` of the `n` records rebuilds all or none of the bundle, whatever the orders,
exactly if `j` is `0` or `n`. -/
theorem bundle_atomic_iff (profile : Profile) {start p : MarketProcessor S} {before : List Input}
    (hstart : MarketProcessor.new none = .ok start)
    (hrun : start.run profile (fun _ => .ok) before = .ok p) {n j : Nat} (hj : j ≤ n) :
    (∀ now orders, orders.length = n → AllOrNone profile now p orders j) ↔ j = 0 ∨ j = n := by
  have hlogged := (Logged.of_new hstart).run (fun _ => rfl) hrun
  rw [List.nil_append] at hlogged
  constructor
  · intro hall
    obtain ⟨side, hfree⟩ := exists_side_unreached hlogged.reachable
    exact bundle_of_resting hlogged hfree hj (hall 0 _ List.length_replicate)
  · intro hends now orders hlength response p' after p'' b hbundle hafter hb hcount
    have hbundle' := logged_command hlogged hbundle
    have hafter' := hbundle'.run (fun _ => rfl) hafter
    rw [hafter'.file, List.nil_append] at hb
    have hread := entryCodec.readAll_prefix hb
    rw [hcount, readAll_file hlogged] at hread
    have hentries : (Command.executeBundle orders).entries.length = n := by
      rw [Command.entries, List.length_map, hlength]
    rcases hends with rfl | rfl
    · have hleft : entryCodec.readAll b = logged before := by
        rw [hread, Nat.add_zero, List.append_assoc, List.take_left]
      obtain ⟨q, hq, hbook⟩ := new_of_readAll (hleft ▸ replay_file hlogged)
      exact ⟨q, hq, .inl hbook⟩
    · have hleft : entryCodec.readAll b =
          logged before ++ (Command.executeBundle orders).entries := by
        rw [hread, ← hentries, ← List.length_append, List.take_left]
      obtain ⟨q, hq, hbook⟩ := new_of_readAll (hleft ▸ replay_file hbundle')
      exact ⟨q, hq, .inr hbook⟩

/-- All records of a first bundle of two orders are left. -/
theorem bundle_atomic_iff_both :
    ∃ start p : MarketProcessor StackSlab, MarketProcessor.new none = .ok start ∧
      start.run .checked (fun _ => .ok) [] = .ok p ∧
      ∀ now orders, orders.length = 2 → AllOrNone .checked now p orders 2 := by
  obtain ⟨start, hstart, -⟩ := Logged.new (S := StackSlab) none
  have hrun : start.run .checked (fun _ => .ok) [] = .ok start := rfl
  exact ⟨start, start, hstart, hrun,
    (bundle_atomic_iff .checked hstart hrun (Nat.le_refl 2)).mpr (.inr rfl)⟩

/-- An ask of 10 and the bid that takes it, with the crash between their records: the
ask rests in the book rebuilt, and neither before nor after the bundle. -/
theorem bundle_torn :
    ∃ (p p' q : MarketProcessor StackSlab) (response : Response) (b : List UInt8),
      MarketProcessor.new none = .ok p ∧
      handleCommand .checked (fun _ => .ok) 0 p
        (.executeBundle [⟨7, 1, .ask, 100, 10⟩, ⟨8, 2, .bid, 100, 10⟩]) = .ok (response, p') ∧
      b <+: p'.wal.file ∧ MarketProcessor.new (some b) = .ok q ∧
      p.book.flat .ask = [] ∧ p'.book.flat .ask = [] ∧
      q.book.flat .ask = [⟨1, 7, 100, 10, .ask, 0⟩] ∧
      ¬ AllOrNone .checked 0 p [⟨7, 1, .ask, 100, 10⟩, ⟨8, 2, .bid, 100, 10⟩] 1 := by
  refine ⟨_, _, _, _, [0, 1, 7, 1, 100, 10], rfl, rfl, by decide, rfl, rfl, rfl, rfl, fun h => ?_⟩
  obtain ⟨q, hq, hbook⟩ := h _ _ [] _ [0, 1, 7, 1, 100, 10] rfl rfl (by decide) (by decide)
  have hasks : q.book.flat .ask = [⟨1, 7, 100, 10, .ask, 0⟩] := by
    cases hq
    rfl
  rcases hbook with hbook | hbook
  · rw [hbook] at hasks
    revert hasks
    decide
  · rw [hbook] at hasks
    revert hasks
    decide

end EviceChain.Engine
