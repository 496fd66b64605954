import EviceChain.P2p.Swarm

/-!
# When the network counts as ready (`p2p/swarm.rs`)

The loop counts the connected peers at every tick of a timer. It remembers since when
there have been enough of them, forgets it when there are too few, and sets the flag
that `main` hands to it once there have been enough for the length of a window.

`networkReady_iff`: however the peers come and go, the flag is set after a tick just if
there were enough peers at every tick of a stretch that ends now and spans the window.
The node and so many peers are as many as a quorum of the validators; who they are the loop
does not ask.
-/

namespace EviceChain.P2p

open Sequencer

/-- `NETWORK_STABILITY_WINDOW`, in nanoseconds. -/
def networkStabilityWindow : Nat := 3000000000

def requiredPeerThreshold (numValidators : Nat) : Nat :=
  if 0 < numValidators then max (numValidators * 2 / 3) 1 else 1

/-- What the loop finds when the timer ticks. Times are numbers of nanoseconds. -/
structure Tick where
  now : Nat
  currentPeers : Nat
deriving DecidableEq, Repr

structure Stability where
  stableSince : Option Nat
  networkReady : Bool
deriving DecidableEq, Repr

namespace Stability

def new : Stability := ⟨none, false⟩

def tick (threshold : Nat) (s : Stability) (t : Tick) : Stability :=
  if threshold ≤ t.currentPeers then
    let stableInstant := s.stableSince.getD t.now
    ⟨some stableInstant,
      if networkStabilityWindow ≤ t.now - stableInstant then true else s.networkReady⟩
  else ⟨none, false⟩

def run (threshold : Nat) (ticks : List Tick) : Stability := ticks.foldl (tick threshold) new

end Stability

/-- The unbroken stretch of ticks with enough peers that leads up to now. -/
def stableStretch (threshold : Nat) (ticks : List Tick) : List Tick :=
  ticks.rtakeWhile fun t => threshold ≤ t.currentPeers

/-- Two of the ticks are as far apart as the window is long. -/
def Spans (ticks : List Tick) : Prop :=
  ∃ first ∈ ticks, ∃ last ∈ ticks, first.now + networkStabilityWindow ≤ last.now

theorem Spans.mono {inner outer : List Tick} (h : Spans inner) (hsub : inner ⊆ outer) :
    Spans outer := by
  obtain ⟨first, hfirst, last, hlast, hspan⟩ := h
  exact ⟨first, hsub hfirst, last, hsub hlast, hspan⟩

namespace StabilityLemmas

variable {threshold : Nat} {ticks : List Tick} {t : Tick}

theorem run_snoc :
    Stability.run threshold (ticks ++ [t]) = (Stability.run threshold ticks).tick threshold t :=
  List.foldl_append

theorem stableStretch_snoc (h : threshold ≤ t.currentPeers) :
    stableStretch threshold (ticks ++ [t]) = stableStretch threshold ticks ++ [t] :=
  List.rtakeWhile_concat_pos _ _ _ (decide_eq_true h)

theorem stableStretch_broken (h : ¬ threshold ≤ t.currentPeers) :
    stableStretch threshold (ticks ++ [t]) = [] :=
  List.rtakeWhile_concat_neg _ _ _ (by simpa using h)

theorem mem_stableStretch_append {before stretch : List Tick}
    (h : ∀ u ∈ stretch, threshold ≤ u.currentPeers) (ht : t ∈ stretch) :
    t ∈ stableStretch threshold (before ++ stretch) := by
  have hpos : ∀ u ∈ stretch.reverse, decide (threshold ≤ u.currentPeers) = true := by
    simpa using h
  unfold stableStretch List.rtakeWhile
  rw [List.reverse_append, List.takeWhile_append_of_pos hpos]
  simp [ht]

theorem not_spans_nil : ¬ Spans [] := by
  rintro ⟨first, hfirst, -⟩
  simp at hfirst

/-- The loop only looks at the first tick of the stretch and at the present one. -/
theorem spans_snoc {stretch : List Tick} (hsorted : (stretch ++ [t]).Pairwise (·.now ≤ ·.now)) :
    Spans (stretch ++ [t]) ↔
      networkStabilityWindow ≤ t.now - (stretch.head?.map Tick.now).getD t.now := by
  cases stretch with
  | nil => simp [Spans]
  | cons earliest stretch =>
    have hfirst : ∀ u ∈ earliest :: stretch ++ [t], earliest.now ≤ u.now := by
      intro u hu
      rcases List.mem_cons.mp hu with rfl | hu
      · exact Nat.le_refl _
      · exact List.rel_of_pairwise_cons hsorted hu
    have hlast : ∀ u ∈ earliest :: stretch ++ [t], u.now ≤ t.now := by
      intro u hu
      rcases List.mem_append.mp hu with hu | hu
      · exact (List.pairwise_append.mp hsorted).2.2 u hu t (List.mem_singleton_self t)
      · rw [List.mem_singleton.mp hu]
    show _ ↔ networkStabilityWindow ≤ t.now - earliest.now
    constructor
    · rintro ⟨first, hf, last, hl, hspan⟩
      have := hfirst first hf
      have := hlast last hl
      omega
    · intro hspan
      refine ⟨earliest, by simp, t, by simp, ?_⟩
      unfold networkStabilityWindow at hspan ⊢
      omega

/-- What the two variables of the loop say of the ticks so far. -/
theorem run_eq (hsorted : ticks.Pairwise (·.now ≤ ·.now)) :
    (Stability.run threshold ticks).stableSince
        = (stableStretch threshold ticks).head?.map Tick.now ∧
      ((Stability.run threshold ticks).networkReady = true
        ↔ Spans (stableStretch threshold ticks)) := by
  induction ticks using List.reverseRecOn with
  | nil => exact ⟨rfl, iff_of_false Bool.false_ne_true not_spans_nil⟩
  | append_singleton ticks t ih =>
    obtain ⟨hsince, hready⟩ := ih (List.pairwise_append.mp hsorted).1
    rw [run_snoc]
    unfold Stability.tick
    by_cases henough : threshold ≤ t.currentPeers
    · have hstretch : stableStretch threshold (ticks ++ [t]) =
          stableStretch threshold ticks ++ [t] := stableStretch_snoc henough
      have hsuffix : stableStretch threshold (ticks ++ [t]) <:+ ticks ++ [t] :=
        List.rtakeWhile_suffix _ _
      have hspans := spans_snoc (hstretch ▸ hsorted.sublist hsuffix.sublist)
      rw [if_pos henough, hstretch, hsince]
      refine ⟨by cases stableStretch threshold ticks <;> simp, ?_⟩
      show (if _ then true else (Stability.run threshold ticks).networkReady) = true ↔ _
      split
      · exact iff_of_true rfl (hspans.mpr ‹_›)
      · -- the flag was down before, for else the stretch would span the window already
        refine iff_of_false (fun hflag => ?_) (mt hspans.mp ‹_›)
        exact ‹¬ _› (hspans.mp ((hready.mp hflag).mono (List.subset_append_left _ _)))
    · rw [if_neg henough, stableStretch_broken henough]
      exact ⟨rfl, iff_of_false Bool.false_ne_true not_spans_nil⟩

theorem requiredQuorum_le {numValidators peers : Nat}
    (h : requiredPeerThreshold numValidators ≤ peers) :
    requiredQuorum numValidators ≤ peers + 1 := by
  unfold requiredPeerThreshold at h
  unfold requiredQuorum
  split at h <;> split <;> omega

end StabilityLemmas

open StabilityLemmas

/-- The flag is set after the ticks `ticks` just if there were enough peers at every tick of
a stretch that ends now and spans the window; and if it is set, the node and its peers
are as many as a quorum. -/
theorem networkReady_iff (numValidators : Nat) (ticks : List Tick)
    (hsorted : ticks.Pairwise (·.now ≤ ·.now)) :
    ((Stability.run (requiredPeerThreshold numValidators) ticks).networkReady = true ↔
      ∃ stretch, stretch <:+ ticks ∧ Spans stretch ∧
        ∀ t ∈ stretch, requiredPeerThreshold numValidators ≤ t.currentPeers) ∧
    ((Stability.run (requiredPeerThreshold numValidators) ticks).networkReady = true →
      ∃ t ∈ ticks.getLast?, requiredQuorum numValidators ≤ t.currentPeers + 1) := by
  set threshold := requiredPeerThreshold numValidators
  have hready : (Stability.run threshold ticks).networkReady = true ↔ _ := (run_eq hsorted).2
  have hiff : (Stability.run threshold ticks).networkReady = true ↔
      ∃ stretch, stretch <:+ ticks ∧ Spans stretch ∧
        ∀ t ∈ stretch, threshold ≤ t.currentPeers := by
    rw [hready]
    constructor
    · intro hspans
      refine ⟨_, List.rtakeWhile_suffix _ _, hspans, fun t ht => ?_⟩
      have := List.mem_rtakeWhile_imp ht
      exact of_decide_eq_true this
    · rintro ⟨stretch, ⟨before, rfl⟩, hspans, henough⟩
      exact hspans.mono fun t ht => mem_stableStretch_append henough ht
  refine ⟨hiff, fun hflag => ?_⟩
  obtain ⟨stretch, ⟨before, rfl⟩, ⟨first, hfirst, -⟩, henough⟩ := hiff.mp hflag
  obtain ⟨last, hlast⟩ : ∃ last, stretch.getLast? = some last := by
    exact ⟨_, List.getLast?_eq_getLast_of_ne_nil (List.ne_nil_of_mem hfirst)⟩
  refine ⟨last, ?_, requiredQuorum_le (henough last (List.mem_of_getLast? hlast))⟩
  rw [List.getLast?_append, hlast]
  rfl

/-- Four validators: two peers are enough, for as long as nobody leaves. -/
theorem networkReady_iff_four :
    (Stability.run (requiredPeerThreshold 4)
        [⟨0, 1⟩, ⟨1000000000, 2⟩, ⟨2000000000, 3⟩, ⟨4000000000, 2⟩]).networkReady = true ∧
      (Stability.run (requiredPeerThreshold 4)
        [⟨0, 2⟩, ⟨1000000000, 2⟩, ⟨2000000000, 1⟩, ⟨4000000000, 2⟩]).networkReady = false := by
  refine ⟨(networkReady_iff 4 _ (by decide)).1.mpr
    ⟨_, List.suffix_cons _ _, ⟨⟨1000000000, 2⟩, by simp, ⟨4000000000, 2⟩, by simp, by decide⟩,
      by decide⟩, by decide⟩

end EviceChain.P2p
