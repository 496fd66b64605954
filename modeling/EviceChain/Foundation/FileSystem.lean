import EviceChain.Foundation.Run

/-!
# A directory that crashes

The names of a directory point to files. What has been written to a file is sure to
survive a crash once the file is synced, and what a name points to once the directory
is. Until then a crash may leave any contents in the file, and under a name any of the
entries it has had since the directory was synced, for each name on its own.
-/

namespace Foundation

open Function

structure FileSystem (ν : Type) where
  entries : ν → Option Nat
  /-- The entries that a name has had since the directory was synced, without the last. -/
  earlier : ν → List (Option Nat)
  contents : Nat → List UInt8
  synced : Nat → Bool
  /-- The number of the next file. -/
  next : Nat

namespace FileSystem

variable {ν : Type} (fs : FileSystem ν)

/-- What a crash may leave under a name. -/
def candidates (name : ν) : List (Option Nat) := fs.entries name :: fs.earlier name

def read (name : ν) : Option (List UInt8) := (fs.entries name).map fs.contents

def write (file : Nat) (bytes : List UInt8) : FileSystem ν :=
  { fs with
    contents := update fs.contents file (fs.contents file ++ bytes)
    synced := update fs.synced file false }

def sync (file : Nat) : FileSystem ν := { fs with synced := update fs.synced file true }

def syncDir : FileSystem ν := { fs with earlier := fun _ => [] }

/-- `pick` says which of its entries a name is left with, and `torn` what is left of the
files that were not synced. -/
def crash (pick : ν → Nat) (torn : Nat → List UInt8) : FileSystem ν where
  entries name := (fs.candidates name).getD (pick name) (fs.entries name)
  earlier _ := []
  contents file := if fs.synced file then fs.contents file else torn file
  synced _ := true
  next := fs.next

/-- Nothing is lost in a crash. -/
structure Settled : Prop where
  earlier : ∀ name, fs.earlier name = []
  synced : ∀ name file, fs.entries name = some file → fs.synced file = true
  bound : ∀ name file, fs.entries name = some file → file < fs.next

section

variable [DecidableEq ν]

def enter (name : ν) (entry : Option Nat) : FileSystem ν :=
  { fs with
    entries := update fs.entries name entry
    earlier := update fs.earlier name (fs.candidates name) }

/-- A new empty file under a name that is not taken. -/
def createNew (name : ν) : Option (FileSystem ν) :=
  match fs.entries name with
  | some _ => none
  | none => some { fs.enter name (some fs.next) with
      contents := update fs.contents fs.next []
      synced := update fs.synced fs.next false
      next := fs.next + 1 }

def rename (old new : ν) : Option (FileSystem ν) :=
  match fs.entries old with
  | none => none
  | some file => some (if old = new then fs else (fs.enter new (some file)).enter old none)

end

/-! ## What the operations change -/

variable {fs} {fs' : FileSystem ν} {name other : ν} {file : Nat}

theorem contents_write_self {bytes : List UInt8} :
    (fs.write file bytes).contents file = fs.contents file ++ bytes := update_self ..

theorem contents_write_of_ne {f : Nat} {bytes : List UInt8} (h : f ≠ file) :
    (fs.write file bytes).contents f = fs.contents f := update_of_ne h ..

theorem synced_write_of_ne {f : Nat} {bytes : List UInt8} (h : f ≠ file) :
    (fs.write file bytes).synced f = fs.synced f := update_of_ne h ..

theorem synced_sync_self : (fs.sync file).synced file = true := update_self ..

theorem synced_sync {f : Nat} (h : fs.synced f = true) : (fs.sync file).synced f = true := by
  unfold sync
  by_cases hf : f = file
  · rw [hf]
    exact update_self ..
  · exact (update_of_ne hf ..).trans h

theorem entries_crash_mem (pick : ν → Nat) (torn : Nat → List UInt8) (name : ν) :
    (fs.crash pick torn).entries name ∈ fs.candidates name := by
  show (fs.candidates name).getD (pick name) (fs.entries name) ∈ fs.candidates name
  rcases Nat.lt_or_ge (pick name) (fs.candidates name).length with h | h
  · rw [List.getD_eq_getElem _ _ h]
    exact List.getElem_mem h
  · rw [List.getD_eq_default _ _ h]
    exact List.mem_cons_self

theorem contents_crash {pick : ν → Nat} {torn : Nat → List UInt8} (h : fs.synced file = true) :
    (fs.crash pick torn).contents file = fs.contents file := if_pos h

variable [DecidableEq ν]

theorem entries_enter_self {entry : Option Nat} : (fs.enter name entry).entries name = entry :=
  update_self ..

theorem entries_enter_of_ne {entry : Option Nat} (h : other ≠ name) :
    (fs.enter name entry).entries other = fs.entries other := update_of_ne h ..

theorem candidates_enter_self {entry : Option Nat} :
    (fs.enter name entry).candidates name = entry :: fs.candidates name :=
  congrArg₂ List.cons (update_self ..) (update_self ..)

theorem candidates_enter_of_ne {entry : Option Nat} (h : other ≠ name) :
    (fs.enter name entry).candidates other = fs.candidates other :=
  congrArg₂ List.cons (update_of_ne h ..) (update_of_ne h ..)

theorem mem_candidates_enter {entry e : Option Nat}
    (h : e ∈ (fs.enter name entry).candidates other) : e = entry ∨ e ∈ fs.candidates other := by
  by_cases hname : other = name
  · rw [hname, candidates_enter_self] at h
    rw [hname]
    exact List.mem_cons.mp h
  · exact .inr (candidates_enter_of_ne hname ▸ h)

/-- The files before `next` and the other names are left alone. -/
theorem createNew_eq_some (h : fs.createNew name = some fs') :
    fs.entries name = none ∧ fs'.entries name = some fs.next ∧ fs'.next = fs.next + 1 ∧
      fs'.contents fs.next = [] ∧
      (∀ other, other ≠ name → fs'.entries other = fs.entries other ∧
        fs'.candidates other = fs.candidates other) ∧
      (∀ other e, e ∈ fs'.candidates other → e = some fs.next ∨ e ∈ fs.candidates other) ∧
      ∀ f, f ≠ fs.next → fs'.contents f = fs.contents f ∧ fs'.synced f = fs.synced f := by
  unfold createNew at h
  split at h
  · cases h
  · next hname =>
    cases h
    exact ⟨hname, entries_enter_self, rfl, update_self ..,
      fun other hne => ⟨entries_enter_of_ne hne, candidates_enter_of_ne hne⟩,
      fun other e he => mem_candidates_enter he,
      fun f hf => ⟨update_of_ne hf .., update_of_ne hf ..⟩⟩

/-- The file is then under the new name only, and no file has changed. -/
theorem rename_eq_some (hne : name ≠ other) (h : fs.rename name other = some fs') :
    ∃ file, fs.entries name = some file ∧ fs'.entries other = some file ∧
      fs'.earlier other = fs.candidates other ∧
      (∀ n, n ≠ name → n ≠ other → fs'.entries n = fs.entries n) ∧
      (∀ n e, e ∈ fs'.candidates n → e = some file ∨ e = none ∨ e ∈ fs.candidates n) ∧
      fs'.contents = fs.contents ∧ fs'.synced = fs.synced ∧ fs'.next = fs.next := by
  unfold rename at h
  split at h
  · cases h
  · next file hfile =>
    rw [if_neg hne] at h
    cases h
    refine ⟨file, hfile, ?_, ?_, fun n hn ho => ?_, fun n e he => ?_, rfl, rfl, rfl⟩
    · exact (entries_enter_of_ne hne.symm).trans entries_enter_self
    · exact (update_of_ne hne.symm ..).trans (update_self ..)
    · exact (entries_enter_of_ne hn).trans (entries_enter_of_ne ho)
    · rcases mem_candidates_enter he with he | he
      · exact .inr (.inl he)
      · exact (mem_candidates_enter he).imp_right .inr

end FileSystem

end Foundation
