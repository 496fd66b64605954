import Mathlib

/-!
# Ordered maps as sorted entry lists

A `SortedMap κ ν` is the list of its entries in strictly ascending key order,
with that order as a field, so that a map with a repeated or misplaced key
cannot be built. It models an ordered map whose client iterates from either
end (`first?`, `last?`), inserts, replaces and erases.

Results:
1. `get?_eq_some_iff`, `mem_insert`, `mem_erase`: what the operations store;
2. `insert_of_split`, `erase_of_split`, `insert_of_gap`: where the operations
   act in the entry list, for clients that read the map in order;
3. `last?_eq_some_iff`, `last?_insert`: the largest key, which an insertion takes
   over or leaves.
-/

namespace Foundation

/-- A finite map, as its entries in strictly ascending key order. -/
structure SortedMap (κ ν : Type) [LinearOrder κ] where
  entries : List (κ × ν)
  sorted : entries.Pairwise fun a b => a.1 < b.1

namespace SortedMap

variable {κ ν : Type} [LinearOrder κ]

/-! ## Operations -/

def empty : SortedMap κ ν := ⟨[], List.Pairwise.nil⟩

def get? (m : SortedMap κ ν) (k : κ) : Option ν :=
  (m.entries.find? fun e => e.1 = k).map Prod.snd

/-- The entry with the smallest key. -/
def first? (m : SortedMap κ ν) : Option (κ × ν) := m.entries.head?

/-- The entry with the largest key. -/
def last? (m : SortedMap κ ν) : Option (κ × ν) := m.entries.getLast?

def size (m : SortedMap κ ν) : Nat := m.entries.length

/-- Insertion into an ascending entry list; an entry with the same key is
replaced. -/
def insertEntry (k : κ) (v : ν) : List (κ × ν) → List (κ × ν)
  | [] => [(k, v)]
  | (k', v') :: rest =>
    if k < k' then (k, v) :: (k', v') :: rest
    else if k = k' then (k, v) :: rest
    else (k', v') :: insertEntry k v rest

theorem mem_insertEntry {k : κ} {v : ν} {l : List (κ × ν)}
    (hl : l.Pairwise fun a b => a.1 < b.1) (e : κ × ν) :
    e ∈ insertEntry k v l ↔ e = (k, v) ∨ (e ∈ l ∧ e.1 ≠ k) := by
  induction l with
  | nil => simp [insertEntry]
  | cons head rest ih =>
    obtain ⟨k', v'⟩ := head
    obtain ⟨hhead, hrest⟩ := List.pairwise_cons.mp hl
    have above : k ≤ k' → ∀ e ∈ rest, e.1 ≠ k := fun h e he =>
      ne_of_gt (lt_of_le_of_lt h (hhead e he))
    unfold insertEntry
    split
    · next hlt =>
      have hne : k' ≠ k := ne_of_gt hlt
      have := above hlt.le
      simp only [List.mem_cons]
      constructor
      · rintro (h | rfl | h)
        · exact .inl h
        · exact .inr ⟨.inl rfl, hne⟩
        · exact .inr ⟨.inr h, this e h⟩
      · rintro (h | ⟨h | h, _⟩)
        · exact .inl h
        · exact .inr (.inl h)
        · exact .inr (.inr h)
    · split
      · next heq =>
        subst heq
        have := above le_rfl
        simp only [List.mem_cons]
        constructor
        · rintro (h | h)
          · exact .inl h
          · exact .inr ⟨.inr h, this e h⟩
        · rintro (h | ⟨rfl | h, hne⟩)
          · exact .inl h
          · exact absurd rfl hne
          · exact .inr h
      · next hnlt hne =>
        simp only [List.mem_cons, ih hrest]
        constructor
        · rintro (rfl | h | ⟨h, hk⟩)
          · exact .inr ⟨.inl rfl, Ne.symm hne⟩
          · exact .inl h
          · exact .inr ⟨.inr h, hk⟩
        · rintro (h | ⟨h | h, hk⟩)
          · exact .inr (.inl h)
          · exact .inl h
          · exact .inr (.inr ⟨h, hk⟩)

theorem insertEntry_sorted {k : κ} {v : ν} {l : List (κ × ν)}
    (hl : l.Pairwise fun a b => a.1 < b.1) :
    (insertEntry k v l).Pairwise fun a b => a.1 < b.1 := by
  induction l with
  | nil => simp [insertEntry]
  | cons head rest ih =>
    obtain ⟨k', v'⟩ := head
    obtain ⟨hhead, hrest⟩ := List.pairwise_cons.mp hl
    unfold insertEntry
    split
    · next hlt =>
      refine List.pairwise_cons.mpr ⟨?_, hl⟩
      intro e he
      rcases List.mem_cons.mp he with rfl | he
      · exact hlt
      · exact hlt.trans (hhead e he)
    · split
      · next heq =>
        subst heq
        exact List.pairwise_cons.mpr ⟨hhead, hrest⟩
      · next hnlt hne =>
        refine List.pairwise_cons.mpr ⟨?_, ih hrest⟩
        intro e he
        rcases (mem_insertEntry hrest e).mp he with rfl | ⟨he, _⟩
        · exact lt_of_le_of_ne (not_lt.mp hnlt) (Ne.symm hne)
        · exact hhead e he

/-- Insert, replacing the value of an existing key. -/
def insert (m : SortedMap κ ν) (k : κ) (v : ν) : SortedMap κ ν :=
  ⟨insertEntry k v m.entries, insertEntry_sorted m.sorted⟩

def erase (m : SortedMap κ ν) (k : κ) : SortedMap κ ν :=
  ⟨m.entries.filter fun e => e.1 ≠ k, m.sorted.filter _⟩

/-! ## What the operations store -/

theorem value_unique {m : SortedMap κ ν} {k : κ} {v v' : ν}
    (h : (k, v) ∈ m.entries) (h' : (k, v') ∈ m.entries) : v = v' := by
  have hp : m.entries.Pairwise fun a b => a.1 = b.1 → a.2 = b.2 :=
    m.sorted.imp fun hlt heq => absurd heq (ne_of_lt hlt)
  have hflip : m.entries.Pairwise (flip fun a b => a.1 = b.1 → a.2 = b.2) :=
    m.sorted.imp fun hlt heq => absurd heq (ne_of_gt hlt)
  exact hp.forall_of_forall_of_flip (fun _ _ _ => rfl) hflip h h' rfl

theorem get?_eq_some_iff {m : SortedMap κ ν} {k : κ} {v : ν} :
    m.get? k = some v ↔ (k, v) ∈ m.entries := by
  constructor
  · intro h
    obtain ⟨⟨k', v'⟩, hfind, rfl⟩ := Option.map_eq_some_iff.mp h
    have hk : k' = k := by simpa using List.find?_some hfind
    subst hk
    exact List.mem_of_find?_eq_some hfind
  · intro h
    cases hfind : m.entries.find? fun e => decide (e.1 = k) with
    | none => simpa using List.find?_eq_none.mp hfind (k, v) h
    | some e =>
      obtain ⟨k', v'⟩ := e
      have hk : k' = k := by simpa using List.find?_some hfind
      subst hk
      have := value_unique h (List.mem_of_find?_eq_some hfind)
      simp [get?, hfind, this]

theorem get?_eq_none_iff {m : SortedMap κ ν} {k : κ} :
    m.get? k = none ↔ ∀ v, (k, v) ∉ m.entries := by
  constructor
  · intro h v hv
    rw [get?_eq_some_iff.mpr hv] at h
    exact nomatch h
  · intro h
    cases hg : m.get? k with
    | none => rfl
    | some v => exact absurd (get?_eq_some_iff.mp hg) (h v)

@[simp] theorem mem_insert {m : SortedMap κ ν} {k : κ} {v : ν} {e : κ × ν} :
    e ∈ (m.insert k v).entries ↔ e = (k, v) ∨ (e ∈ m.entries ∧ e.1 ≠ k) :=
  mem_insertEntry m.sorted e

/-! ## Where the operations act -/

section Split

variable {m : SortedMap κ ν} {k : κ} {v v' : ν} {l₁ l₂ : List (κ × ν)}

theorem split_lt (h : m.entries = l₁ ++ (k, v) :: l₂) :
    (∀ e ∈ l₁, e.1 < k) ∧ ∀ e ∈ l₂, k < e.1 := by
  have hs := m.sorted
  rw [h, List.pairwise_append, List.pairwise_cons] at hs
  obtain ⟨_, ⟨hafter, _⟩, hcross⟩ := hs
  exact ⟨fun e he => hcross e he (k, v) List.mem_cons_self, hafter⟩

theorem insertEntry_append (hbefore : ∀ e ∈ l₁, e.1 < k) :
    insertEntry k v (l₁ ++ l₂) = l₁ ++ insertEntry k v l₂ := by
  induction l₁ with
  | nil => rfl
  | cons head rest ih =>
    have hlt := hbefore head List.mem_cons_self
    have hrest := ih fun e he => hbefore e (List.mem_cons_of_mem _ he)
    simp [insertEntry, not_lt.mpr hlt.le, ne_of_gt hlt, hrest]

/-- Replacing the value of a present key keeps its place. -/
theorem insert_of_split (h : m.entries = l₁ ++ (k, v) :: l₂) :
    (m.insert k v').entries = l₁ ++ (k, v') :: l₂ := by
  show insertEntry k v' m.entries = _
  rw [h, insertEntry_append (split_lt h).1]
  simp [insertEntry]

theorem erase_of_split (h : m.entries = l₁ ++ (k, v) :: l₂) :
    (m.erase k).entries = l₁ ++ l₂ := by
  obtain ⟨hbefore, hafter⟩ := split_lt h
  have h₁ : l₁.filter (fun e => decide (e.1 ≠ k)) = l₁ :=
    List.filter_eq_self.mpr fun e he => by simpa using ne_of_lt (hbefore e he)
  have h₂ : l₂.filter (fun e => decide (e.1 ≠ k)) = l₂ :=
    List.filter_eq_self.mpr fun e he => by simpa using ne_of_gt (hafter e he)
  show m.entries.filter _ = _
  rw [h, List.filter_append, h₁, List.filter_cons_of_neg (by simp), h₂]

/-- A new key goes between the smaller and the larger ones. -/
theorem insert_of_gap (h : m.entries = l₁ ++ l₂)
    (hbefore : ∀ e ∈ l₁, e.1 < k) (hafter : ∀ e ∈ l₂, k < e.1) :
    (m.insert k v).entries = l₁ ++ (k, v) :: l₂ := by
  show insertEntry k v m.entries = _
  rw [h, insertEntry_append hbefore]
  cases l₂ with
  | nil => rfl
  | cons head rest => simp [insertEntry, hafter head List.mem_cons_self]

/-- Around a key that is absent the entries split into smaller and larger. -/
theorem exists_gap (hnone : m.get? k = none) :
    ∃ l₁ l₂, m.entries = l₁ ++ l₂ ∧ (∀ e ∈ l₁, e.1 < k) ∧ ∀ e ∈ l₂, k < e.1 := by
  have habsent := get?_eq_none_iff.mp hnone
  have hs := m.sorted
  generalize m.entries = l at habsent hs
  induction l with
  | nil => exact ⟨[], [], rfl, by simp, by simp⟩
  | cons head rest ih =>
    obtain ⟨hhead, hrest⟩ := List.pairwise_cons.mp hs
    rcases lt_trichotomy head.1 k with hlt | heq | hgt
    · obtain ⟨l₁, l₂, hl, h₁, h₂⟩ :=
        ih (fun v hv => habsent v (List.mem_cons_of_mem _ hv)) hrest
      refine ⟨head :: l₁, l₂, by rw [hl]; rfl, ?_, h₂⟩
      intro e he
      rcases List.mem_cons.mp he with rfl | he
      · exact hlt
      · exact h₁ e he
    · exact absurd (by rw [← heq]; exact List.mem_cons_self) (habsent head.2)
    · refine ⟨[], head :: rest, rfl, by simp, ?_⟩
      intro e he
      rcases List.mem_cons.mp he with rfl | he
      · exact hgt
      · exact hgt.trans (hhead e he)

end Split

/-! ## The largest key -/

theorem last?_eq_some_iff {m : SortedMap κ ν} {e : κ × ν} :
    m.last? = some e ↔ e ∈ m.entries ∧ ∀ e' ∈ m.entries, e'.1 ≤ e.1 := by
  have hlast : ∀ {e}, m.last? = some e → e ∈ m.entries ∧ ∀ e' ∈ m.entries, e'.1 ≤ e.1 := by
    intro e h
    obtain ⟨before, hentries⟩ := List.getLast?_eq_some_iff.mp h
    refine ⟨hentries ▸ List.mem_concat_self, fun e' he' => ?_⟩
    rw [hentries, List.mem_append, List.mem_singleton] at he'
    rcases he' with he' | rfl
    · exact ((split_lt hentries).1 e' he').le
    · exact le_rfl
  refine ⟨hlast, fun ⟨hmem, hle⟩ => ?_⟩
  cases hsome : m.last? with
  | none =>
    rw [List.getLast?_eq_none_iff.mp hsome] at hmem
    cases hmem
  | some e' =>
    obtain ⟨hmem', hle'⟩ := hlast hsome
    have hkey : e.1 = e'.1 := le_antisymm (hle' e hmem) (hle e' hmem')
    obtain ⟨k, v⟩ := e
    obtain ⟨k', v'⟩ := e'
    obtain rfl : k = k' := hkey
    rw [value_unique hmem hmem']

/-- A new entry is the last unless the last has a larger key. -/
theorem last?_insert (m : SortedMap κ ν) (k : κ) (v : ν) :
    (m.insert k v).last? = if m.last?.all (fun e => e.1 ≤ k) then some (k, v) else m.last? := by
  split
  · next htop =>
    refine last?_eq_some_iff.mpr ⟨mem_insert.mpr (.inl rfl), fun e he => ?_⟩
    rcases mem_insert.mp he with rfl | ⟨he, -⟩
    · exact le_rfl
    · cases hlast : m.last? with
      | none =>
        rw [List.getLast?_eq_none_iff.mp hlast] at he
        cases he
      | some top =>
        rw [hlast] at htop
        exact ((last?_eq_some_iff.mp hlast).2 e he).trans (of_decide_eq_true htop)
  · next hbelow =>
    cases hlast : m.last? with
    | none =>
      rw [hlast] at hbelow
      exact (hbelow rfl).elim
    | some top =>
      rw [hlast] at hbelow
      have hlt : k < top.1 := not_le.mp fun hle => hbelow (decide_eq_true hle)
      obtain ⟨hmem, hle⟩ := last?_eq_some_iff.mp hlast
      refine last?_eq_some_iff.mpr ⟨mem_insert.mpr (.inr ⟨hmem, ne_of_gt hlt⟩), fun e he => ?_⟩
      rcases mem_insert.mp he with rfl | ⟨he, -⟩
      · exact hlt.le
      · exact hle e he

end SortedMap

end Foundation
