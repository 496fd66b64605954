import EviceChain.Foundation.FileSystem
import EviceChain.Sequencer.Keystore

/-!
# The file of a keystore (`keystore.rs`)

`save_to_path` writes a keystore to a new file under a random name, syncs it, renames it
to the path and syncs the directory. Each of these calls may fail, and then the save
returns an error and leaves things as they are. Saves to the same path may run next to
each other, and the machine may crash at any time. `write_all` is a loop over `write`,
which may take a part of what is left.

The directory, the machine and what the operating system answers are modelled; that a
path has no parent, and the mode of the file, are not. The directory is not used for
anything else. `serde_json` is a parameter (`KeystoreFormat`).

Results:
1. `DirKept`: what the directory holds at every point of every run;
2. `keystore_survives`: what `from_path` finds is a keystore as a whole, of a save that was
   not over when any save that has returned `Ok` began, or what was there at the start.
-/

namespace EviceChain.Sequencer

open Foundation

/-- The errors of `from_path` and `save_to_path`. -/
inductive FileError
  | io
  | serde
deriving DecidableEq, Repr

/-- `to_string_pretty`; and `read_to_string` on a file, with `from_str`. -/
structure KeystoreFormat where
  print : Keystore → Option Bytes
  parse : Bytes → Except FileError Keystore
  parse_print : ∀ {keystore text}, print keystore = some text → parse text = .ok keystore

def Keystore.fromPath (F : KeystoreFormat) (fs : FileSystem Text) (path : Text) :
    Except FileError Keystore :=
  match fs.read path with
  | none => .error .io
  | some contents => F.parse contents

/-! ## Saves -/

/-- What a save does next. -/
inductive SaveStage
  | opening
  /-- It has written the file but for `rest`. -/
  | writing (file : Nat) (rest : Bytes)
  | moving (file : Nat)
  | settling
  /-- It has returned, with `Ok` or not, or died in a crash. By then `begun` saves had
  begun. -/
  | ended (ok : Bool) (begun : Nat)
deriving DecidableEq, Repr

def SaveStage.running : SaveStage → Bool
  | .ended _ _ => false
  | _ => true

structure Save where
  keystore : Keystore
  uuid : Text
  stage : SaveStage

/-- `format!(".{}.tmp", uuid)` -/
def tmpName (uuid : Text) : Text := '.' :: uuid ++ ".tmp".toList

/-- The saves are numbered in the order in which they begin. -/
structure KeystoreDir where
  fs : FileSystem Text
  saves : List Save

inductive DirMove
  | begin (keystore : Keystore) (uuid : Text)
  /-- A save makes its next call. The call fails, or goes through with a number, which is
  how much a `write` takes. -/
  | call (i : Nat) (answer : Option Nat)
  | crash (pick : Text → Nat) (torn : Nat → Bytes)

def Save.die (begun : Nat) (save : Save) : Save :=
  if save.stage.running then { save with stage := .ended false begun } else save

namespace KeystoreDir

variable (F : KeystoreFormat) (path : Text)

def put (dir : KeystoreDir) (i : Nat) (save : Save) (fs : FileSystem Text) (stage : SaveStage) :
    KeystoreDir :=
  ⟨fs, dir.saves.set i { save with stage }⟩

/-- `?` on an error. -/
def giveUp (dir : KeystoreDir) (i : Nat) (save : Save) : KeystoreDir :=
  dir.put i save dir.fs (.ended false dir.saves.length)

/-- The next call of a save to the given path, when it goes through. -/
def proceed (dir : KeystoreDir) (i : Nat) (save : Save) (taken : Nat) : Option KeystoreDir :=
  match save.stage with
  | .opening =>
    match F.print save.keystore, dir.fs.createNew (tmpName save.uuid) with
    | some text, some fs => some (dir.put i save fs (.writing dir.fs.next text))
    | _, _ => some (dir.giveUp i save)
  | .writing file [] => some (dir.put i save (dir.fs.sync file) (.moving file))
  | .writing file rest =>
    -- a `write` that takes nothing is an error of `write_all`
    if taken = 0 then some (dir.giveUp i save)
    else some (dir.put i save (dir.fs.write file (rest.take taken))
      (.writing file (rest.drop taken)))
  | .moving _ =>
    match dir.fs.rename (tmpName save.uuid) path with
    | some fs => some (dir.put i save fs .settling)
    | none => some (dir.giveUp i save)
  | .settling => some (dir.put i save dir.fs.syncDir (.ended true dir.saves.length))
  | .ended _ _ => none

def step (dir : KeystoreDir) : DirMove → Option KeystoreDir
  | .begin keystore uuid => some { dir with saves := dir.saves ++ [⟨keystore, uuid, .opening⟩] }
  | .call i answer => do
    let save ← dir.saves[i]?
    match answer with
    | some taken => dir.proceed F path i save taken
    | none => if save.stage.running then some (dir.giveUp i save) else none
  | .crash pick torn =>
    some ⟨dir.fs.crash pick torn, dir.saves.map (Save.die dir.saves.length)⟩

end KeystoreDir

/-- The random name is not the path. -/
def Unlike (path : Text) (_ : KeystoreDir) : DirMove → Prop
  | .begin _ uuid => tmpName uuid ≠ path
  | _ => True

instance decidableUnlike (path : Text) (dir : KeystoreDir) (move : DirMove) :
    Decidable (Unlike path dir move) := by
  unfold Unlike
  cases move <;> infer_instance

/-! ## What a step does -/

section

variable {F : KeystoreFormat} {path : Text} {dir dir' : KeystoreDir} {move : DirMove}

/-- The steps of one save. -/
inductive Save.Does (F : KeystoreFormat) (path : Text) (dir : KeystoreDir) (save : Save) :
    FileSystem Text → SaveStage → Prop
  | giveUp : save.stage.running → Does F path dir save dir.fs (.ended false dir.saves.length)
  | create {text fs} : save.stage = .opening → F.print save.keystore = some text →
      dir.fs.createNew (tmpName save.uuid) = some fs →
      Does F path dir save fs (.writing dir.fs.next text)
  | write {file rest} (taken : Nat) : save.stage = .writing file rest →
      Does F path dir save (dir.fs.write file (rest.take taken)) (.writing file (rest.drop taken))
  | sync {file} : save.stage = .writing file [] →
      Does F path dir save (dir.fs.sync file) (.moving file)
  | rename {file fs} : save.stage = .moving file →
      dir.fs.rename (tmpName save.uuid) path = some fs → Does F path dir save fs .settling
  | settle : save.stage = .settling →
      Does F path dir save dir.fs.syncDir (.ended true dir.saves.length)

theorem KeystoreDir.proceed_does {i taken : Nat} {save : Save}
    (h : dir.proceed F path i save taken = some dir') :
    ∃ fs stage, save.Does F path dir fs stage ∧ dir' = dir.put i save fs stage := by
  unfold KeystoreDir.proceed at h
  split at h
  · next hstage =>
    have hrunning : save.stage.running := by rw [hstage]; rfl
    split at h
    · next text fs htext hfs =>
      cases h
      exact ⟨_, _, .create hstage htext hfs, rfl⟩
    · cases h
      exact ⟨_, _, .giveUp hrunning, rfl⟩
  · next file hstage =>
    cases h
    exact ⟨_, _, .sync hstage, rfl⟩
  · next file rest _ hstage =>
    have hrunning : save.stage.running := by rw [hstage]; rfl
    split at h
    · cases h
      exact ⟨_, _, .giveUp hrunning, rfl⟩
    · cases h
      exact ⟨_, _, .write taken hstage, rfl⟩
  · next file hstage =>
    have hrunning : save.stage.running := by rw [hstage]; rfl
    split at h
    · next fs hfs =>
      cases h
      exact ⟨_, _, .rename hstage hfs, rfl⟩
    · cases h
      exact ⟨_, _, .giveUp hrunning, rfl⟩
  · next hstage =>
    cases h
    exact ⟨_, _, .settle hstage, rfl⟩
  · cases h

theorem KeystoreDir.step_cases (h : dir.step F path move = some dir') :
    (∃ keystore uuid, move = .begin keystore uuid ∧
      dir' = ⟨dir.fs, dir.saves ++ [⟨keystore, uuid, .opening⟩]⟩) ∨
    (∃ i save fs stage, dir.saves[i]? = some save ∧ save.Does F path dir fs stage ∧
      dir' = dir.put i save fs stage) ∨
    ∃ pick torn, dir' = ⟨dir.fs.crash pick torn, dir.saves.map (Save.die dir.saves.length)⟩ := by
  cases move with
  | begin keystore uuid => exact .inl ⟨keystore, uuid, rfl, (Option.some.inj h).symm⟩
  | call i answer =>
    obtain ⟨save, hsave, h⟩ := Option.bind_eq_some_iff.mp h
    refine .inr (.inl ⟨i, save, ?_⟩)
    cases answer with
    | some taken =>
      obtain ⟨fs, stage, hdoes, rfl⟩ := KeystoreDir.proceed_does h
      exact ⟨fs, stage, hsave, hdoes, rfl⟩
    | none =>
      dsimp only at h
      split at h
      · next hrunning =>
        cases h
        exact ⟨_, _, hsave, .giveUp hrunning, rfl⟩
      · cases h
  | crash pick torn => exact .inr (.inr ⟨pick, torn, (Option.some.inj h).symm⟩)

end

/-! ## What the directory holds -/

/-- The file that a save is working on. -/
def SaveStage.file? : SaveStage → Option Nat
  | .writing file _ => some file
  | .moving file => some file
  | _ => none

/-- It was over when save `j` began. -/
def SaveStage.EndedBefore (j : Nat) : SaveStage → Prop
  | .ended _ begun => begun ≤ j
  | _ => False

def SaveStage.Saved : SaveStage → Prop
  | .ended ok _ => ok = true
  | _ => False

/-- It has put its file under the path, and has not failed since. -/
def SaveStage.Replaced : SaveStage → Prop
  | .settling => True
  | .ended ok _ => ok = true
  | _ => False

/-- What a save can rely on. -/
structure Save.Works (F : KeystoreFormat) (path : Text) (fs : FileSystem Text) (save : Save) :
    Prop where
  named : tmpName save.uuid ≠ path
  file : ∀ {file}, save.stage.file? = some file →
    fs.entries (tmpName save.uuid) = some file ∧ some file ∉ fs.candidates path
  writing : ∀ {file rest}, save.stage = .writing file rest →
    F.print save.keystore = some (fs.contents file ++ rest)
  moving : ∀ {file}, save.stage = .moving file →
    fs.synced file = true ∧ F.print save.keystore = some (fs.contents file)

/-- The entry is as it was at the start (`before`) or was put there by a save, which was not
over when any save that counts began. -/
def Found (F : KeystoreFormat) (before : Option Bytes) (dir : KeystoreDir)
    (counts : SaveStage → Prop) (entry : Option Nat) : Prop :=
  (∀ file, entry = some file → dir.fs.synced file = true) ∧
    ((entry.map dir.fs.contents = before ∧ ∀ save ∈ dir.saves, ¬counts save.stage) ∨
      ∃ (i : Nat) (save : Save) (text : Bytes), dir.saves[i]? = some save ∧
        F.print save.keystore = some text ∧ entry.map dir.fs.contents = some text ∧
        ∀ (j : Nat) other, dir.saves[j]? = some other → counts other.stage →
          ¬save.stage.EndedBefore j)

/-- `current` counts the saves that have replaced the file, since one of them may be the
next to sync the directory. A crash may bring back one of the earlier entries. -/
structure DirKept (F : KeystoreFormat) (path : Text) (before : Option Bytes) (dir : KeystoreDir) :
    Prop where
  bound : ∀ name file, some file ∈ dir.fs.candidates name → file < dir.fs.next
  works : ∀ save ∈ dir.saves, save.Works F path dir.fs
  apart : ∀ (i j : Nat) (save other : Save) (file : Nat), dir.saves[i]? = some save →
    dir.saves[j]? = some other → save.stage.file? = some file →
    other.stage.file? = some file → i = j
  current : Found F before dir SaveStage.Replaced (dir.fs.entries path)
  earlier : ∀ entry ∈ dir.fs.earlier path, Found F before dir SaveStage.Saved entry

section

variable {F : KeystoreFormat} {path : Text} {before : Option Bytes} {dir dir' : KeystoreDir}
  {counts counts' : SaveStage → Prop} {entry : Option Nat} {save save' : Save} {stage : SaveStage}
  {fs fs' : FileSystem Text} {i : Nat}

theorem SaveStage.Saved.replaced (h : stage.Saved) : stage.Replaced := by
  cases stage with
  | ended ok begun => exact h
  | _ => cases h

/-! ### Entries over a step -/

/-- The saves go on, or end now. -/
def Later (saves saves' : List Save) : Prop :=
  ∀ (i : Nat) save, saves[i]? = some save → ∃ save', saves'[i]? = some save' ∧
    save'.keystore = save.keystore ∧
    ∀ j < saves.length, save'.stage.EndedBefore j → save.stage.EndedBefore j

/-- Whoever counts has counted. -/
def CountedBefore (counts counts' : SaveStage → Prop) (saves saves' : List Save) : Prop :=
  ∀ (j : Nat) other', saves'[j]? = some other' → counts' other'.stage →
    ∃ other, saves[j]? = some other ∧ counts other.stage

theorem Found.step (h : Found F before dir counts entry)
    (hfs : ∀ file, entry = some file → dir'.fs.contents file = dir.fs.contents file ∧
      dir'.fs.synced file = true)
    (hlater : Later dir.saves dir'.saves)
    (hcounts : CountedBefore counts counts' dir.saves dir'.saves) :
    Found F before dir' counts' entry := by
  have hcontents : entry.map dir'.fs.contents = entry.map dir.fs.contents := by
    cases entry with
    | none => rfl
    | some file => exact congrArg some (hfs file rfl).1
  refine ⟨fun file hfile => (hfs file hfile).2, ?_⟩
  rw [hcontents]
  rcases h.2 with ⟨hbefore, hnone⟩ | ⟨i, save, text, hsave, htext, hentry, hended⟩
  · refine .inl ⟨hbefore, fun other' hother' hcount => ?_⟩
    obtain ⟨j, hj⟩ := List.mem_iff_getElem?.mp hother'
    obtain ⟨other, hother, hcount⟩ := hcounts j other' hj hcount
    exact hnone other (List.mem_of_getElem? hother) hcount
  · obtain ⟨save', hsave', hkeystore, hearlier⟩ := hlater i save hsave
    refine .inr ⟨i, save', text, hsave', hkeystore ▸ htext, hentry,
      fun j other' hother' hcount h => ?_⟩
    obtain ⟨other, hother, hcount⟩ := hcounts j other' hother' hcount
    have hj : j < dir.saves.length := (List.getElem?_eq_some_iff.mp hother).1
    exact hended j other hother hcount (hearlier j hj h)

theorem Found.mono (h : Found F before dir counts entry)
    (hcounts : ∀ stage, counts' stage → counts stage) : Found F before dir counts' entry :=
  h.step (fun file hfile => ⟨rfl, h.1 file hfile⟩)
    (fun _ save hsave => ⟨save, hsave, rfl, fun _ _ h => h⟩)
    fun _ other hother hcount => ⟨other, hother, hcounts _ hcount⟩

/-- A save that goes on, or ends now. -/
def Onward (saves : List Save) : SaveStage → Prop
  | .ended _ begun => begun = saves.length
  | _ => True

theorem later_set {saves : List Save} (hi : saves[i]? = some save) (hstage : Onward saves stage) :
    Later saves (saves.set i { save with stage }) := by
  intro k other hk
  by_cases hik : i = k
  · subst hik
    obtain rfl : save = other := Option.some.inj (hi.symm.trans hk)
    refine ⟨_, List.getElem?_set_self (List.getElem?_eq_some_iff.mp hi).1, rfl, fun j hj h => ?_⟩
    cases stage with
    | ended ok begun =>
      have hbegun : begun = saves.length := hstage
      exact absurd (hbegun ▸ h : saves.length ≤ j) (Nat.not_le.mpr hj)
    | _ => cases h
  · exact ⟨other, (List.getElem?_set_ne hik).trans hk, rfl, fun _ _ h => h⟩

theorem counted_set {saves : List Save} (hi : saves[i]? = some save)
    (hstage : counts' stage → counts save.stage) (hcounts : ∀ stage, counts' stage → counts stage) :
    CountedBefore counts counts' saves (saves.set i { save with stage }) := by
  intro j other' hj hcount
  by_cases hij : i = j
  · subst hij
    rw [List.getElem?_set_self (List.getElem?_eq_some_iff.mp hi).1] at hj
    cases hj
    exact ⟨save, hi, hstage hcount⟩
  · rw [List.getElem?_set_ne hij] at hj
    exact ⟨other', hj, hcounts _ hcount⟩

theorem mem_snoc_cases {saves : List Save} {j : Nat} {other : Save}
    (h : (saves ++ [save])[j]? = some other) : saves[j]? = some other ∨ other = save := by
  rcases Nat.lt_or_ge j saves.length with hj | hj
  · rw [List.getElem?_append_left hj] at h
    exact .inl h
  · rw [List.getElem?_append_right hj] at h
    exact .inr (List.mem_singleton.mp (List.mem_of_getElem? h))

theorem later_snoc (saves : List Save) : Later saves (saves ++ [save]) := fun _ save hi =>
  ⟨save, (List.getElem?_append_left (List.getElem?_eq_some_iff.mp hi).1).trans hi, rfl,
    fun _ _ h => h⟩

theorem counted_snoc {saves : List Save} (hnew : ¬counts save.stage) :
    CountedBefore counts counts saves (saves ++ [save]) := by
  intro j other hj hcount
  rcases mem_snoc_cases hj with hj | rfl
  · exact ⟨other, hj, hcount⟩
  · exact absurd hcount hnew

theorem die_eq (save : Save) (begun : Nat) :
    save.stage.running = true ∧ save.die begun = { save with stage := .ended false begun } ∨
      save.stage.running = false ∧ save.die begun = save := by
  unfold Save.die
  cases h : save.stage.running with
  | true => exact .inl ⟨rfl, if_pos rfl⟩
  | false => exact .inr ⟨rfl, if_neg Bool.false_ne_true⟩

theorem later_die (saves : List Save) : Later saves (saves.map (Save.die saves.length)) := by
  intro i save hi
  refine ⟨save.die saves.length, by rw [List.getElem?_map, hi]; rfl, ?_⟩
  rcases die_eq save saves.length with ⟨-, h⟩ | ⟨-, h⟩
  · rw [h]
    exact ⟨rfl, fun j hj hle => absurd hle (Nat.not_le.mpr hj)⟩
  · rw [h]
    exact ⟨rfl, fun _ _ h => h⟩

/-- A crash leaves no save that might still succeed. -/
theorem counted_die (saves : List Save) : CountedBefore SaveStage.Saved SaveStage.Replaced saves
    (saves.map (Save.die saves.length)) := by
  intro j other' hj hcount
  rw [List.getElem?_map] at hj
  obtain ⟨other, hother, rfl⟩ := Option.map_eq_some_iff.mp hj
  refine ⟨other, hother, ?_⟩
  rcases die_eq other saves.length with ⟨-, h⟩ | ⟨hrunning, h⟩
  · rw [h] at hcount
    cases hcount
  · rw [h] at hcount
    cases hstage : other.stage with
    | ended ok begun => rw [hstage] at hcount; exact hcount
    | _ => rw [hstage] at hrunning; cases hrunning

theorem file?_die (save : Save) (begun : Nat) : (save.die begun).stage.file? = none := by
  rcases die_eq save begun with ⟨-, h⟩ | ⟨hrunning, h⟩
  · rw [h]
    rfl
  · rw [h]
    cases hstage : save.stage with
    | ended ok begun => rfl
    | _ => rw [hstage] at hrunning; cases hrunning

/-! ### One save's step -/

/-- What a step of a save that works on `own` leaves alone. -/
structure Leaves (path : Text) (own : Option Nat) (fs fs' : FileSystem Text) : Prop where
  next : fs.next ≤ fs'.next
  candidates : ∀ name file, some file ∈ fs'.candidates name →
    some file ∈ fs.candidates name ∨ own = some file ∨ file = fs.next ∧ fs.next < fs'.next
  contents : ∀ file, file ≠ fs.next → own ≠ some file → fs'.contents file = fs.contents file ∧
    (fs.synced file = true → fs'.synced file = true)
  entries : ∀ name file, name ≠ path → own ≠ some file → fs.entries name = some file →
    fs'.entries name = some file

theorem Save.Does.leaves (hworks : save.Works F path dir.fs) (h : save.Does F path dir fs stage) :
    Leaves path save.stage.file? dir.fs fs := by
  cases h with
  | giveUp _ =>
    exact ⟨le_rfl, fun _ _ h => .inl h, fun _ _ _ => ⟨rfl, id⟩, fun _ _ _ _ h => h⟩
  | create hstage htext hfs =>
    obtain ⟨hfree, hentry, hnext, hempty, hothers, hcandidates, hfiles⟩ :=
      FileSystem.createNew_eq_some hfs
    refine ⟨hnext ▸ Nat.le_succ _, fun name file h => ?_, fun file hfile _ => ?_,
      fun name file _ _ h => ?_⟩
    · rcases hcandidates name _ h with heq | h
      · exact .inr (.inr ⟨Option.some.inj heq, hnext ▸ Nat.lt_succ_self _⟩)
      · exact .inl h
    · exact ⟨(hfiles file hfile).1, fun h => (hfiles file hfile).2.trans h⟩
    · have hne : name ≠ tmpName save.uuid := by
        rintro rfl
        cases hfree.symm.trans h
      exact (hothers name hne).1.trans h
  | write taken hstage =>
    refine ⟨le_rfl, fun _ _ h => .inl h, fun file _ hown => ?_, fun _ _ _ _ h => h⟩
    have hne : file ≠ _ := fun heq => hown (hstage ▸ heq ▸ rfl)
    exact ⟨FileSystem.contents_write_of_ne hne, (FileSystem.synced_write_of_ne hne).trans⟩
  | sync hstage =>
    exact ⟨le_rfl, fun _ _ h => .inl h, fun _ _ _ => ⟨rfl, FileSystem.synced_sync⟩,
      fun _ _ _ _ h => h⟩
  | rename hstage hfs =>
    obtain ⟨file, hfile, hpath, hearlier, hothers, hcandidates, hcontents, hsynced, hnext⟩ :=
      FileSystem.rename_eq_some hworks.named hfs
    have hown : save.stage.file? = some file := by
      rw [hstage]
      exact (hworks.file (hstage ▸ rfl)).1.symm.trans hfile
    refine ⟨hnext.ge, fun name f h => ?_, fun f _ _ => ⟨congrFun hcontents f, fun h => ?_⟩,
      fun name f hname hf h => ?_⟩
    · rcases hcandidates name _ h with heq | heq | h
      · exact .inr (.inl (heq ▸ hown))
      · cases heq
      · exact .inl h
    · exact (congrFun hsynced f).trans h
    · have hne : name ≠ tmpName save.uuid := by
        rintro rfl
        exact hf (hown.trans (hfile.symm.trans h))
      exact (hothers name hne hname).trans h
  | settle hstage =>
    refine ⟨le_rfl, fun _ _ h => ?_, fun _ _ _ => ⟨rfl, id⟩, fun _ _ _ _ h => h⟩
    rw [List.mem_singleton.mp h]
    exact .inl List.mem_cons_self

/-- A save without a file has nothing to rely on. -/
theorem Save.Works.idle (hnamed : tmpName save.uuid ≠ path) (hfile : save.stage.file? = none) :
    save.Works F path fs where
  named := hnamed
  file h := by cases hfile.symm.trans h
  writing h := by rw [h] at hfile; cases hfile
  moving h := by rw [h] at hfile; cases hfile

theorem Save.Works.of_leaves {own : Option Nat} (hworks : save.Works F path fs)
    (hbound : ∀ name file, some file ∈ fs.candidates name → file < fs.next)
    (hleaves : Leaves path own fs fs')
    (hown : ∀ file, save.stage.file? = some file → own ≠ some file) : save.Works F path fs' := by
  have hold : ∀ {file}, save.stage.file? = some file → file ≠ fs.next := fun hfile =>
    (hbound _ _ (List.mem_cons.mpr (.inl (hworks.file hfile).1.symm))).ne
  refine ⟨hworks.named, fun {file} hfile => ?_, fun {file rest} hstage => ?_,
    fun {file} hstage => ?_⟩
  · obtain ⟨hentry, hhidden⟩ := hworks.file hfile
    refine ⟨hleaves.entries _ _ hworks.named (hown file hfile) hentry, fun hmem => ?_⟩
    rcases hleaves.candidates _ _ hmem with hmem | heq | ⟨heq, -⟩
    · exact hhidden hmem
    · exact hown file hfile heq
    · exact hold hfile heq
  · have hfile : save.stage.file? = some file := hstage ▸ rfl
    rw [(hleaves.contents file (hold hfile) (hown file hfile)).1]
    exact hworks.writing hstage
  · have hfile : save.stage.file? = some file := hstage ▸ rfl
    obtain ⟨hcontents, hsynced⟩ := hleaves.contents file (hold hfile) (hown file hfile)
    rw [hcontents]
    exact (hworks.moving hstage).imp_left hsynced

/-- The save itself works on. -/
theorem Save.Does.works (hworks : save.Works F path dir.fs)
    (hbound : ∀ name file, some file ∈ dir.fs.candidates name → file < dir.fs.next)
    (h : save.Does F path dir fs stage) : Works F path fs { save with stage } := by
  cases h with
  | giveUp _ => exact .idle hworks.named rfl
  | create hstage htext hfs =>
    obtain ⟨hfree, hentry, hnext, hempty, hothers, hcandidates, hfiles⟩ :=
      FileSystem.createNew_eq_some hfs
    refine ⟨hworks.named, fun hfile => ?_, fun hwriting => ?_, nofun⟩
    · cases hfile
      refine ⟨hentry, fun hmem => ?_⟩
      rw [(hothers path hworks.named.symm).2] at hmem
      exact (hbound _ _ hmem).false
    · cases hwriting
      rw [hempty]
      exact htext
  | write taken hstage =>
    refine ⟨hworks.named, fun hfile => ?_, fun hwriting => ?_, nofun⟩
    · cases hfile
      exact hworks.file (hstage ▸ rfl)
    · cases hwriting
      rw [FileSystem.contents_write_self, List.append_assoc, List.take_append_drop]
      exact hworks.writing hstage
  | sync hstage =>
    refine ⟨hworks.named, fun hfile => ?_, nofun, fun hmoving => ?_⟩
    · cases hfile
      exact hworks.file (hstage ▸ rfl)
    · cases hmoving
      refine ⟨FileSystem.synced_sync_self, ?_⟩
      rw [hworks.writing hstage, List.append_nil]
      rfl
  | rename hstage hfs => exact .idle hworks.named rfl
  | settle hstage => exact .idle hworks.named rfl

theorem Save.Does.file (h : save.Does F path dir fs stage) {file : Nat}
    (hfile : stage.file? = some file) : save.stage.file? = some file ∨ file = dir.fs.next := by
  cases h with
  | create _ _ _ => exact .inr (Option.some.inj hfile).symm
  | write taken hstage => exact .inl (hstage ▸ hfile)
  | sync hstage => exact .inl (hstage ▸ hfile)
  | giveUp _ => cases hfile
  | rename _ _ => cases hfile
  | settle _ => cases hfile

theorem Save.Does.onward (h : save.Does F path dir fs stage) : Onward dir.saves stage := by
  cases h with
  | giveUp _ => rfl
  | settle _ => rfl
  | _ => trivial

/-- What a step does to the entries of the path. -/
theorem Save.Does.at_path (hworks : save.Works F path dir.fs) (h : save.Does F path dir fs stage) :
    (∃ file, save.stage = .moving file ∧ stage = .settling ∧ fs.entries path = some file ∧
        fs.earlier path = dir.fs.candidates path ∧ fs.contents = dir.fs.contents ∧
        fs.synced = dir.fs.synced) ∨
      fs.entries path = dir.fs.entries path ∧
        ((¬stage.Replaced ∧ fs.earlier path = dir.fs.earlier path) ∨
          (save.stage.Replaced ∧ fs.earlier path = [])) := by
  cases h with
  | create hstage htext hfs =>
    obtain ⟨-, -, -, -, hothers, -, -⟩ := FileSystem.createNew_eq_some hfs
    obtain ⟨hentries, hcandidates⟩ := hothers path hworks.named.symm
    exact .inr ⟨hentries, .inl ⟨id, (List.cons.inj hcandidates).2⟩⟩
  | rename hstage hfs =>
    obtain ⟨file, hfile, hpath, hearlier, -, -, hcontents, hsynced, -⟩ :=
      FileSystem.rename_eq_some hworks.named hfs
    obtain ⟨hentry, -⟩ := hworks.file (congrArg SaveStage.file? hstage)
    cases hfile.symm.trans hentry
    exact .inl ⟨_, hstage, rfl, hpath, hearlier, hcontents, hsynced⟩
  | giveUp _ => exact .inr ⟨rfl, .inl ⟨nofun, rfl⟩⟩
  | write _ _ => exact .inr ⟨rfl, .inl ⟨id, rfl⟩⟩
  | sync _ => exact .inr ⟨rfl, .inl ⟨id, rfl⟩⟩
  | settle hstage => exact .inr ⟨rfl, .inr ⟨hstage ▸ trivial, rfl⟩⟩

/-! ### Every run -/

section

variable (h : DirKept F path before dir) (hi : dir.saves[i]? = some save)
  (hdoes : save.Does F path dir fs stage)

include h hi hdoes

/-- What a crash may leave under the path is not touched. -/
theorem DirKept.found_put (hcounts : counts' stage → counts save.stage)
    (hmono : ∀ stage, counts' stage → counts stage) (hentry : entry ∈ dir.fs.candidates path)
    (hfound : Found F before dir counts entry) :
    Found F before (dir.put i save fs stage) counts' entry := by
  have hworks := h.works save (List.mem_of_getElem? hi)
  refine hfound.step (fun file hfile => ?_) (later_set hi hdoes.onward)
    (counted_set hi hcounts hmono)
  subst hfile
  have hown : save.stage.file? ≠ some file := fun hfile => (hworks.file hfile).2 hentry
  obtain ⟨hcontents, hsynced⟩ :=
    (hdoes.leaves hworks).contents file (h.bound path file hentry).ne hown
  exact ⟨hcontents, hsynced (hfound.1 file rfl)⟩

theorem DirKept.current_put :
    Found F before (dir.put i save fs stage) SaveStage.Replaced (fs.entries path) := by
  have hworks := h.works save (List.mem_of_getElem? hi)
  rcases hdoes.at_path hworks with
    ⟨file, hstage, rfl, hentries, -, hcontents, hsynced⟩ | ⟨hentries, hpath⟩
  · -- the file is its own, and it is not over
    obtain ⟨hsync, htext⟩ := hworks.moving hstage
    rw [hentries]
    refine ⟨fun f hf => ?_, .inr ⟨i, { save with stage := .settling }, dir.fs.contents file, ?_,
      htext, congrArg some (congrFun hcontents file), fun _ _ _ _ => id⟩⟩
    · cases hf
      exact (congrFun hsynced file).trans hsync
    · exact List.getElem?_set_self (List.getElem?_eq_some_iff.mp hi).1
  · rw [hentries]
    refine h.found_put hi hdoes (fun hreplaced => ?_) (fun _ => id) List.mem_cons_self h.current
    rcases hpath with ⟨hnot, -⟩ | ⟨hsave, -⟩
    · exact absurd hreplaced hnot
    · exact hsave

theorem DirKept.earlier_put : ∀ entry ∈ fs.earlier path,
    Found F before (dir.put i save fs stage) SaveStage.Saved entry := by
  intro entry hentry
  rcases hdoes.at_path (h.works save (List.mem_of_getElem? hi)) with
    ⟨file, -, rfl, -, hearlier, -⟩ | ⟨-, ⟨hnot, hearlier⟩ | ⟨-, hearlier⟩⟩
  · rw [hearlier] at hentry
    refine h.found_put hi hdoes nofun (fun _ => id) hentry ?_
    rcases List.mem_cons.mp hentry with rfl | hentry
    · exact h.current.mono fun _ => SaveStage.Saved.replaced
    · exact h.earlier entry hentry
  · rw [hearlier] at hentry
    exact h.found_put hi hdoes (fun hsaved => absurd hsaved.replaced hnot) (fun _ => id)
      (List.mem_cons_of_mem _ hentry) (h.earlier entry hentry)
  · rw [hearlier] at hentry
    cases hentry

theorem DirKept.works_put : ∀ other ∈ (dir.put i save fs stage).saves, other.Works F path fs := by
  have hworks := h.works save (List.mem_of_getElem? hi)
  intro other hother
  obtain ⟨j, hj⟩ := List.mem_iff_getElem?.mp hother
  by_cases hij : i = j
  · subst hij
    obtain rfl := Option.some.inj
      ((List.getElem?_set_self (List.getElem?_eq_some_iff.mp hi).1).symm.trans hj)
    exact hdoes.works hworks h.bound
  · have hj : dir.saves[j]? = some other := (List.getElem?_set_ne hij).symm.trans hj
    refine (h.works other (List.mem_of_getElem? hj)).of_leaves h.bound (hdoes.leaves hworks) ?_
    exact fun file hfile hown => hij (h.apart i j save other file hi hj hown hfile)

/-- A file that the save works on is no other save's. -/
theorem DirKept.alone_put {j : Nat} {other : Save} {file : Nat} (hj : dir.saves[j]? = some other)
    (hfile : stage.file? = some file) (hother : other.stage.file? = some file) : i = j := by
  rcases hdoes.file hfile with hsave | rfl
  · exact h.apart i j save other file hi hj hsave hother
  · have hentry := ((h.works other (List.mem_of_getElem? hj)).file hother).1
    exact absurd (h.bound _ _ (List.mem_cons.mpr (.inl hentry.symm))) (lt_irrefl _)

theorem DirKept.put : DirKept F path before (dir.put i save fs stage) where
  bound name file hmem := by
    have hleaves := hdoes.leaves (h.works save (List.mem_of_getElem? hi))
    rcases hleaves.candidates name file hmem with hmem | hown | ⟨rfl, hnext⟩
    · exact (h.bound name file hmem).trans_le hleaves.next
    · have hentry := ((h.works save (List.mem_of_getElem? hi)).file hown).1
      exact (h.bound _ _ (List.mem_cons.mpr (.inl hentry.symm))).trans_le hleaves.next
    · exact hnext
  works := h.works_put hi hdoes
  apart := by
    have hlength := (List.getElem?_eq_some_iff.mp hi).1
    intro j k other other' file hj hk hother hother'
    by_cases hij : i = j <;> by_cases hik : i = k
    · exact hij.symm.trans hik
    · subst hij
      obtain rfl := Option.some.inj ((List.getElem?_set_self hlength).symm.trans hj)
      exact h.alone_put hi hdoes ((List.getElem?_set_ne hik).symm.trans hk) hother hother'
    · subst hik
      obtain rfl := Option.some.inj ((List.getElem?_set_self hlength).symm.trans hk)
      exact (h.alone_put hi hdoes ((List.getElem?_set_ne hij).symm.trans hj) hother' hother).symm
    · exact h.apart j k other other' file ((List.getElem?_set_ne hij).symm.trans hj)
        ((List.getElem?_set_ne hik).symm.trans hk) hother hother'
  current := h.current_put hi hdoes
  earlier := h.earlier_put hi hdoes

end

theorem DirKept.begin (h : DirKept F path before dir) {keystore : Keystore} {uuid : Text}
    (huuid : tmpName uuid ≠ path) :
    DirKept F path before ⟨dir.fs, dir.saves ++ [⟨keystore, uuid, .opening⟩]⟩ where
  bound := h.bound
  works other hother := by
    rcases List.mem_append.mp hother with hother | hother
    · exact h.works other hother
    · rw [List.mem_singleton.mp hother]
      exact .idle huuid rfl
  apart i j save other file hi hj hsave hother := by
    rcases mem_snoc_cases hi with hi | rfl
    · rcases mem_snoc_cases hj with hj | rfl
      · exact h.apart i j save other file hi hj hsave hother
      · cases hother
    · cases hsave
  current := h.current.step (fun file hfile => ⟨rfl, h.current.1 file hfile⟩) (later_snoc _)
    (counted_snoc id)
  earlier entry hentry := (h.earlier entry hentry).step
    (fun file hfile => ⟨rfl, (h.earlier entry hentry).1 file hfile⟩) (later_snoc _)
    (counted_snoc id)

theorem DirKept.crash (h : DirKept F path before dir) (pick : Text → Nat) (torn : Nat → Bytes) :
    DirKept F path before
      ⟨dir.fs.crash pick torn, dir.saves.map (Save.die dir.saves.length)⟩ where
  bound name file hmem := by
    have hentry : some file = (dir.fs.crash pick torn).entries name := List.mem_singleton.mp hmem
    exact h.bound name file (hentry ▸ FileSystem.entries_crash_mem pick torn name)
  works other hother := by
    obtain ⟨save, hsave, rfl⟩ := List.mem_map.mp hother
    refine .idle ?_ (file?_die save _)
    rcases die_eq save dir.saves.length with ⟨-, heq⟩ | ⟨-, heq⟩
    all_goals rw [heq]; exact (h.works save hsave).named
  apart i j save other file hi hj hsave hother := by
    rw [List.getElem?_map] at hi
    obtain ⟨save, -, rfl⟩ := Option.map_eq_some_iff.mp hi
    rw [file?_die] at hsave
    cases hsave
  current := by
    have hmem : (dir.fs.crash pick torn).entries path ∈ dir.fs.candidates path :=
      FileSystem.entries_crash_mem pick torn path
    have hfound : Found F before dir SaveStage.Saved ((dir.fs.crash pick torn).entries path) := by
      rcases List.mem_cons.mp hmem with heq | hmem
      · rw [heq]
        exact h.current.mono fun _ => SaveStage.Saved.replaced
      · exact h.earlier _ hmem
    exact hfound.step (fun file hfile => ⟨FileSystem.contents_crash (hfound.1 file hfile), rfl⟩)
      (later_die _) (counted_die _)
  earlier _ := nofun

theorem DirKept.step {move : DirMove} (h : DirKept F path before dir) (hok : Unlike path dir move)
    (hstep : dir.step F path move = some dir') : DirKept F path before dir' := by
  rcases KeystoreDir.step_cases hstep with
    ⟨keystore, uuid, rfl, rfl⟩ | ⟨i, save, fs, stage, hi, hdoes, rfl⟩ | ⟨pick, torn, rfl⟩
  · exact h.begin hok
  · exact h.put hi hdoes
  · exact h.crash pick torn

theorem kept_init (hfs : fs.Settled) : DirKept F path (fs.read path) ⟨fs, []⟩ where
  bound name file hmem := by
    rcases List.mem_cons.mp hmem with hentry | hmem
    · exact hfs.bound name file hentry.symm
    · rw [hfs.earlier name] at hmem
      cases hmem
  works := nofun
  apart := nofun
  current := ⟨hfs.synced path, .inl ⟨rfl, nofun⟩⟩
  earlier entry hmem := by
    have hnil : fs.earlier path = [] := hfs.earlier path
    rw [hnil] at hmem
    cases hmem

theorem kept_of_run (hfs : fs.Settled)
    (hrun : Run (KeystoreDir.step F path) (Unlike path) ⟨fs, []⟩ dir) :
    DirKept F path (fs.read path) dir :=
  hrun.invariant (kept_init hfs) fun _ hok hstep h => h.step hok hstep

theorem fromPath_of_read {text : Bytes} {keystore : Keystore} (hread : fs.read path = some text)
    (htext : F.print keystore = some text) : Keystore.fromPath F fs path = .ok keystore := by
  unfold Keystore.fromPath
  rw [hread]
  exact F.parse_print htext

/-- Whatever saves to the path have run, next to each other or not, however their calls went
and whenever the machine crashed: `from_path` gives what it gave at the start, and no save
has returned `Ok`, or it gives the keystore of a save that was not over when any save that
returned `Ok` began. -/
theorem keystore_survives (hfs : fs.Settled)
    (hrun : Run (KeystoreDir.step F path) (Unlike path) ⟨fs, []⟩ dir) :
    (Keystore.fromPath F dir.fs path = Keystore.fromPath F fs path ∧
        ∀ save ∈ dir.saves, ¬save.stage.Saved) ∨
      ∃ (i : Nat) (save : Save), dir.saves[i]? = some save ∧
        Keystore.fromPath F dir.fs path = .ok save.keystore ∧
        ∀ (j : Nat) (other : Save), dir.saves[j]? = some other → other.stage.Saved →
          ¬save.stage.EndedBefore j := by
  have hfound := (kept_of_run hfs hrun).current.mono fun _ => SaveStage.Saved.replaced
  rcases hfound.2 with ⟨hread, hnone⟩ | ⟨i, save, text, hi, htext, hread, hended⟩
  · refine .inl ⟨?_, hnone⟩
    have hread : dir.fs.read path = fs.read path := hread
    unfold Keystore.fromPath
    rw [hread]
  · exact .inr ⟨i, save, hi, fromPath_of_read hread htext, hended⟩

end

deriving instance DecidableEq for KdfParams, CipherParams, KeystoreCrypto, Keystore

/-- Prints two keystores as one byte each. -/
def toyFormat : KeystoreFormat where
  print keystore :=
    if keystore = keystoreFile [] 1 then some [1]
    else if keystore = keystoreFile [] 2 then some [2]
    else none
  parse
    | [1] => .ok (keystoreFile [] 1)
    | [2] => .ok (keystoreFile [] 2)
    | _ => .error .serde
  parse_print {keystore text} h := by
    split at h
    · next heq => cases h; exact congrArg Except.ok heq.symm
    · split at h
      · next heq => cases h; exact congrArg Except.ok heq.symm
      · cases h

def emptyDir : FileSystem Text where
  entries _ := none
  earlier _ := []
  contents _ := []
  synced _ := false
  next := 0

/-- The second save has replaced the first one's file, and dies before the directory is
synced. The crash brings the first one's file back. -/
theorem keystore_survives_rolledBack :
    ∃ dir : KeystoreDir,
      (dir.saves.map Save.stage = [.ended true 1, .ended false 2] ∧
        Keystore.fromPath toyFormat dir.fs ['k'] = .ok (keystoreFile [] 1)) ∧
      ((Keystore.fromPath toyFormat dir.fs ['k'] = Keystore.fromPath toyFormat emptyDir ['k'] ∧
          ∀ save ∈ dir.saves, ¬save.stage.Saved) ∨
        ∃ (i : Nat) (save : Save), dir.saves[i]? = some save ∧
          Keystore.fromPath toyFormat dir.fs ['k'] = .ok save.keystore ∧
          ∀ (j : Nat) (other : Save), dir.saves[j]? = some other → other.stage.Saved →
            ¬save.stage.EndedBefore j) := by
  have hdir : emptyDir.Settled := ⟨fun _ => rfl, nofun, nofun⟩
  have hruns : ∃ dir, Run (KeystoreDir.step toyFormat ['k']) (Unlike ['k']) ⟨emptyDir, []⟩ dir ∧
      (dir.saves.map Save.stage = [.ended true 1, .ended false 2] ∧
        Keystore.fromPath toyFormat dir.fs ['k'] = .ok (keystoreFile [] 1)) :=
    exists_run [.begin (keystoreFile [] 1) ['a'], .call 0 (some 0), .call 0 (some 1),
      .call 0 (some 0), .call 0 (some 0), .call 0 (some 0),
      .begin (keystoreFile [] 2) ['b'], .call 1 (some 0), .call 1 (some 1), .call 1 (some 0),
      .call 1 (some 0), .crash (fun _ => 1) fun _ => []] (by decide +kernel)
  obtain ⟨dir, hrun, hdone⟩ := hruns
  exact ⟨dir, hdone, keystore_survives hdir hrun⟩

end EviceChain.Sequencer
