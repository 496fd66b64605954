import Mathlib

/-!
# A cache that drops what was put in longest ago

`LruCache` is what is documented of such a cache. It is seen as the list of its keys, the
last one put in first, and has room for a fixed number. Putting a key in that is there
moves it to the front.

Results:
1. `LruCache.foldl_put`: after any sequence of keys, the cache holds the last distinct ones
   among them, as many as there is room for;
2. `mem_lru_of_few`: a key stays while fewer distinct other keys come after it than
   there is room for.
-/

namespace Foundation

variable {κ : Type}

/-- A key that is put in comes first, the others keep their order, and the last ones go if
there is no room for them. -/
structure LruCache (κ : Type) [BEq κ] where
  put : Nat → List κ → κ → List κ
  put_prefix : ∀ room keys key, put room keys key <+: key :: keys.erase key
  put_length : ∀ room keys key,
    (put room keys key).length = min room (key :: keys.erase key).length

section Put

variable [BEq κ]

theorem LruCache.put_eq (cache : LruCache κ) (room : Nat) (keys : List κ) (key : κ) :
    cache.put room keys key = (key :: keys.erase key).take room := by
  rw [List.prefix_iff_eq_take.mp (cache.put_prefix room keys key), cache.put_length,
    ← List.take_eq_take_min]

/-- A cache that is its list of keys. -/
def LruCache.ofList : LruCache κ where
  put room keys key := (key :: keys.erase key).take room
  put_prefix room _ _ := List.take_prefix room _
  put_length _ _ _ := List.length_take

/-- A key is only ever pushed towards the end by what stands in front of it. -/
theorem take_erase_take (keys : List κ) (key : κ) (n : Nat) :
    ((keys.take (n + 1)).erase key).take n = (keys.erase key).take n := by
  induction keys generalizing n with
  | nil => rfl
  | cons k keys ih =>
    rw [List.take_succ_cons, List.erase_cons, List.erase_cons]
    split
    · rw [List.take_take, Nat.min_self]
    · cases n with
      | zero => rfl
      | succ n => rw [List.take_succ_cons, List.take_succ_cons, ih]

theorem LruCache.put_take (cache : LruCache κ) (room : Nat) (keys : List κ) (key : κ) :
    cache.put room (keys.take room) key = (key :: keys.erase key).take room := by
  rw [cache.put_eq]
  cases room with
  | zero => rfl
  | succ n => rw [List.take_succ_cons, List.take_succ_cons, take_erase_take]

variable [LawfulBEq κ] [DecidableEq κ]

theorem dedup_snoc (keys : List κ) (key : κ) :
    (keys ++ [key]).dedup = keys.dedup.erase key ++ [key] := by
  induction keys with
  | nil => rfl
  | cons k keys ih =>
    rw [List.cons_append]
    by_cases hk : k ∈ keys
    · rw [List.dedup_cons_of_mem (List.mem_append_left _ hk), List.dedup_cons_of_mem hk, ih]
    · rw [List.dedup_cons_of_notMem hk, List.erase_cons]
      by_cases heq : k = key
      · subst heq
        rw [List.dedup_cons_of_mem (by simp), ih, if_pos (by simp),
          List.erase_of_not_mem (by rwa [List.mem_dedup])]
      · rw [List.dedup_cons_of_notMem (by simp [hk, heq]), ih, if_neg (by simpa using heq),
          List.cons_append]

/-- The last distinct keys, the latest first. -/
theorem LruCache.foldl_put (cache : LruCache κ) (room : Nat) (keys : List κ) :
    keys.foldl (cache.put room) [] = keys.dedup.reverse.take room := by
  induction keys using List.reverseRecOn with
  | nil => rw [List.foldl_nil, List.dedup_nil, List.reverse_nil, List.take_nil]
  | append_singleton keys key ih =>
    have hreverse : (keys.dedup.erase key).reverse = keys.dedup.reverse.erase key := by
      have hnodup := List.nodup_dedup keys
      rw [hnodup.erase_eq_filter, (List.nodup_reverse.mpr hnodup).erase_eq_filter,
        List.filter_reverse]
    rw [List.foldl_append, ih, List.foldl_cons, List.foldl_nil, cache.put_take, dedup_snoc,
      List.reverse_append, hreverse]
    rfl

end Put

section Distinct

variable [DecidableEq κ]

/-- Behind a key stand the keys that came after it. -/
theorem dedup_split (xs : List κ) (key : κ) (ys : List κ) :
    ∃ before after, (xs ++ key :: ys).dedup = before ++ key :: after ∧
      ∀ k ∈ after, k ∈ ys := by
  induction xs with
  | nil =>
    rw [List.nil_append]
    by_cases hkey : key ∈ ys
    · obtain ⟨before, after, hsplit⟩ := List.append_of_mem (List.mem_dedup.mpr hkey)
      refine ⟨before, after, by rw [List.dedup_cons_of_mem hkey, hsplit], fun k hk => ?_⟩
      exact List.mem_dedup.mp (hsplit ▸ List.mem_append_right _ (List.mem_cons_of_mem _ hk))
    · exact ⟨[], ys.dedup, List.dedup_cons_of_notMem hkey, fun k hk => List.mem_dedup.mp hk⟩
  | cons x xs ih =>
    obtain ⟨before, after, hsplit, hafter⟩ := ih
    rw [List.cons_append]
    by_cases hx : x ∈ xs ++ key :: ys
    · exact ⟨before, after, by rw [List.dedup_cons_of_mem hx, hsplit], hafter⟩
    · exact ⟨x :: before, after, by rw [List.dedup_cons_of_notMem hx, hsplit]; rfl, hafter⟩

theorem mem_lru_of_few {room : Nat} (xs : List κ) (key : κ) (ys : List κ)
    (h : (ys.filter (· ≠ key)).dedup.length < room) :
    key ∈ (xs ++ key :: ys).dedup.reverse.take room := by
  obtain ⟨before, after, hsplit, hafter⟩ := dedup_split xs key ys
  have hnodup : (before ++ key :: after).Nodup := hsplit ▸ List.nodup_dedup _
  obtain ⟨-, hnodup, -⟩ := List.nodup_append.mp hnodup
  obtain ⟨hkey, hnodup⟩ := List.nodup_cons.mp hnodup
  have hsubset : after ⊆ (ys.filter (· ≠ key)).dedup := by
    intro k hk
    rw [List.mem_dedup, List.mem_filter]
    refine ⟨hafter k hk, ?_⟩
    rw [decide_eq_true_eq]
    rintro rfl
    exact hkey hk
  have hlength := (List.subperm_of_subset hnodup hsubset).length_le
  have hreverse : (before ++ key :: after).reverse = after.reverse ++ key :: before.reverse := by
    simp
  rw [hsplit, hreverse, List.take_append, List.length_reverse]
  refine List.mem_append_right _ ?_
  rw [show room - after.length = room - after.length - 1 + 1 by omega, List.take_succ_cons]
  exact List.mem_cons_self

/-- Keys that a function tells apart are as distinct as its values. -/
theorem dedup_map {α : Type} [DecidableEq α] {f : α → κ} {l : List α}
    (h : ∀ x ∈ l, ∀ y ∈ l, f x = f y → x = y) : (l.map f).dedup = l.dedup.map f := by
  induction l with
  | nil => rfl
  | cons x l ih =>
    have ih := ih fun y hy z hz => h y (List.mem_cons_of_mem _ hy) z (List.mem_cons_of_mem _ hz)
    rw [List.map_cons]
    by_cases hx : x ∈ l
    · rw [List.dedup_cons_of_mem (List.mem_map_of_mem hx), List.dedup_cons_of_mem hx, ih]
    · have hfx : f x ∉ l.map f := by
        intro hmem
        obtain ⟨y, hy, heq⟩ := List.mem_map.mp hmem
        exact hx (h y (List.mem_cons_of_mem _ hy) x List.mem_cons_self heq ▸ hy)
      rw [List.dedup_cons_of_notMem hfx, List.dedup_cons_of_notMem hx, ih, List.map_cons]

end Distinct

end Foundation
