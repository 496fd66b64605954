import Mathlib

/-!
# Chains

A list is a chain if every element names the one before it as its parent. Chains
of elements with at most one successor to each parent are comparable
(`Chained.comparable`): one of them continues the other.
-/

namespace Foundation

variable {α κ : Type} (parent name : α → κ)

/-- The name of the last element, or `root`. -/
def tip (root : κ) (l : List α) : κ := l.foldl (fun _ a => name a) root

/-- The parent of the first element is `root`, that of every other the name of
the one before. -/
def Chained : κ → List α → Prop
  | _, [] => True
  | root, a :: l => parent a = root ∧ Chained (name a) l

variable {parent name}

namespace Chained

theorem snoc {root : κ} {l : List α} (h : Chained parent name root l) {a : α}
    (ha : parent a = tip name root l) : Chained parent name root (l ++ [a]) := by
  induction l generalizing root with
  | nil => exact ⟨ha, trivial⟩
  | cons b l ih => exact ⟨h.1, ih h.2 ha⟩

/-- Two chains from one root, if no parent has two successors among their
elements. -/
theorem comparable {P : α → Prop} (hunique : ∀ a b, P a → P b → parent a = parent b → a = b)
    {root : κ} {l l' : List α} (h : Chained parent name root l)
    (h' : Chained parent name root l') (hl : ∀ a ∈ l, P a) (hl' : ∀ a ∈ l', P a) :
    l <+: l' ∨ l' <+: l := by
  induction l generalizing root l' with
  | nil => exact .inl List.nil_prefix
  | cons a l ih =>
    cases l' with
    | nil => exact .inr List.nil_prefix
    | cons b l' =>
      obtain ⟨ha, hrest⟩ := List.forall_mem_cons.mp hl
      obtain ⟨hb, hrest'⟩ := List.forall_mem_cons.mp hl'
      obtain rfl : a = b := hunique a b ha hb (h.1.trans h'.1.symm)
      rcases ih h.2 h'.2 hrest hrest' with hle | hle
      · exact .inl ((List.prefix_cons_inj a).mpr hle)
      · exact .inr ((List.prefix_cons_inj a).mpr hle)

end Chained

end Foundation
