import EdgeDot.FileTree

/-!
# Paths in a tree that changes

A file that is put where no directory is neither makes a directory nor takes one away.  A path that
led somewhere before still leads there, and a file that could be created still can.

* `FileTree.put_put`            of two changes of one place the later one counts
* `FileTree.Creates`            what it takes to create a file, `FileTree.create_eq_ok_iff`
* `FileTree.Creates.locate_eq`  a file that is there is found where it could be created
* `FileTree.Keeps`              trees with the same directories, of which one has more files
* `FileTree.Keeps.locate`, `FileTree.Keeps.create`   what the larger tree keeps of the smaller one
-/

namespace EdgeDot.FileTree

variable {t t' : FileTree} {place directory : Place} {path name : Text}

/-! ## one place -/

theorem put_put (t : FileTree) (place : Place) (node node' : Node) :
    (t.put place node).put place node' = t.put place node' := by
  simp [put]

theorem ne_root_of_not_directory (h : t.node? place ≠ some .directory) : place ≠ [] := by
  rintro rfl
  exact h t.node?_root

theorem source_of_file {content : Bytes} (h : t.node? place = some (.file content)) :
    t.source place = .ofBytes content := by
  rw [source, h]

/-! ## creating a file -/

/-- what it takes to create or empty a file: the path is one of the given name behind a path to a
directory, and there is no directory of this name -/
structure Creates (t : FileTree) (path : Text) (directory : Place) (name : Text) : Prop where
  checked : checkPath path = .ok ()
  walked : ∃ before, (pathParts path).reverse.dropWhile List.isEmpty = name :: before ∧
    t.walk (t.start path) before.reverse = .ok directory
  isDirectory : t.node? directory = some .directory
  isName : ¬ ((pathParts path).getLast? = some [] ∨ name = ".".toList ∨ name = "..".toList)
  short : ¬ longestName < name.byteLength
  free : t.node? (directory ++ [name]) ≠ some .directory

theorem Creates.create_eq (h : t.Creates path directory name) :
    t.create path = .ok (directory ++ [name], t.put (directory ++ [name]) (.file [])) := by
  obtain ⟨before, hparts, hwalk⟩ := h.walked
  unfold create
  rw [h.checked]
  dsimp only
  rw [hparts]
  dsimp only
  rw [hwalk]
  dsimp only
  rw [if_neg fun hne => hne h.isDirectory, if_neg h.isName]
  unfold createIn
  rw [if_neg h.short, if_neg h.free]

theorem creates_of_create {created : Place × FileTree} (h : t.create path = .ok created) :
    ∃ directory name, t.Creates path directory name := by
  unfold create at h
  cases hcheck : checkPath path with
  | error e =>
    rw [hcheck] at h
    cases h
  | ok u =>
    rw [hcheck] at h
    dsimp only at h
    cases hparts : (pathParts path).reverse.dropWhile List.isEmpty with
    | nil =>
      rw [hparts] at h
      cases h
    | cons name before =>
      rw [hparts] at h
      dsimp only at h
      cases hwalk : t.walk (t.start path) before.reverse with
      | error e =>
        rw [hwalk] at h
        cases h
      | ok directory =>
        rw [hwalk] at h
        dsimp only [createIn] at h
        -- every test that refuses the path has to fail
        split at h
        · cases h
        next hdirectory =>
          split at h
          · cases h
          next hname =>
            split at h
            · cases h
            next hshort =>
              split at h
              · cases h
              next hfree =>
                exact ⟨directory, name, hcheck, ⟨before, hparts, hwalk⟩,
                  Classical.not_not.1 hdirectory, hname, hshort, hfree⟩

theorem create_eq_ok_iff {changed : FileTree} : t.create path = .ok (place, changed) ↔
    ∃ directory name, t.Creates path directory name ∧ place = directory ++ [name] ∧
      changed = t.put place (.file []) := by
  constructor
  · intro h
    obtain ⟨directory, name, hcreates⟩ := creates_of_create h
    rw [hcreates.create_eq] at h
    obtain ⟨rfl, rfl⟩ := Prod.mk.inj (Except.ok.inj h)
    exact ⟨directory, name, hcreates, rfl, rfl⟩
  · rintro ⟨directory, name, hcreates, rfl, rfl⟩
    exact hcreates.create_eq

/-! ## steps -/

theorem step_of_directory (h : t.node? place = some .directory) (part : Text) :
    t.step place part =
      if part = [] ∨ part = ".".toList then .ok place
      else if part = "..".toList then .ok place.dropLast
      else if longestName < part.byteLength then .error .invalidFilename
      else match t.node? (place ++ [part]) with
        | none => .error .notFound
        | some _ => .ok (place ++ [part]) :=
  if_neg fun hne => hne h

/-- only directories lead anywhere -/
theorem directory_of_step {part : Text} {next : Place} (h : t.step place part = .ok next) :
    t.node? place = some .directory := by
  unfold step at h
  split at h
  · cases h
  next hdirectory => exact Classical.not_not.1 hdirectory

theorem walk_append_of_ok {front : List Text} {middle : Place}
    (h : t.walk place front = .ok middle) (back : List Text) :
    t.walk place (front ++ back) = t.walk middle back := by
  induction front generalizing place with
  | nil =>
    cases h
    rfl
  | cons part front ih =>
    rw [walk] at h
    rw [List.cons_append, walk]
    cases hstep : t.step place part with
    | error e =>
      rw [hstep] at h
      cases h
    | ok next =>
      rw [hstep] at h
      exact ih h

/-! ## finding what was created -/

namespace Creates
variable (h : t.Creates path directory name)
include h

/-- such a path ends with the name -/
theorem pathParts_eq : name ≠ [] ∧ ∃ before, pathParts path = before ++ [name] ∧
    t.walk (t.start path) before = .ok directory := by
  obtain ⟨before, hparts, hwalk⟩ := h.walked
  have hlast : (pathParts path).reverse.head? ≠ some [] := by
    rw [List.head?_reverse]
    exact fun hempty => h.isName (.inl hempty)
  cases hreverse : (pathParts path).reverse with
  | nil =>
    rw [hreverse] at hparts
    cases hparts
  | cons last front =>
    rw [hreverse] at hparts hlast
    have hne : last ≠ [] := fun hempty => hlast (congrArg some hempty)
    rw [List.dropWhile_cons_of_neg (by rwa [List.isEmpty_iff])] at hparts
    obtain ⟨rfl, rfl⟩ := List.cons.inj hparts
    refine ⟨hne, front.reverse, ?_, hwalk⟩
    rw [← List.reverse_cons, ← hreverse, List.reverse_reverse]

/-- a file that is there is found where it could be created -/
theorem locate_eq (hthere : t.node? (directory ++ [name]) ≠ none) :
    t.locate path = .ok (directory ++ [name]) := by
  obtain ⟨hne, before, hparts, hwalk⟩ := h.pathParts_eq
  obtain ⟨hdot, hdots⟩ := not_or.1 (not_or.1 h.isName).2
  have hstep : t.step directory name = .ok (directory ++ [name]) := by
    rw [step_of_directory h.isDirectory, if_neg (not_or.2 ⟨hne, hdot⟩), if_neg hdots,
      if_neg h.short]
    cases hnode : t.node? (directory ++ [name]) with
    | none => exact absurd hnode hthere
    | some node => rfl
  unfold locate
  rw [h.checked]
  dsimp only
  rw [hparts, walk_append_of_ok hwalk, walk, hstep]
  rfl

end Creates

/-! ## trees that keep their directories -/

/-- a tree with the same directories as another and with at least its files -/
structure Keeps (t t' : FileTree) : Prop where
  workingDirectory : t'.workingDirectory = t.workingDirectory
  directory_iff : ∀ place, t'.node? place = some .directory ↔ t.node? place = some .directory
  present : ∀ place, t.node? place ≠ none → t'.node? place ≠ none

/-- a file is put where no directory is -/
theorem keeps_put (h : t.node? place ≠ some .directory) (content : Bytes) :
    Keeps t (t.put place (.file content)) := by
  have hput := t.node?_put_self (.file content) (ne_root_of_not_directory h)
  refine ⟨rfl, fun other => ?_, fun other hother => ?_⟩
  · by_cases heq : other = place
    · rw [heq, hput]
      exact ⟨nofun, fun hdirectory => absurd hdirectory h⟩
    · rw [t.node?_put_of_ne _ heq]
  · by_cases heq : other = place
    · rw [heq, hput]
      exact nofun
    · rwa [t.node?_put_of_ne _ heq]

namespace Keeps
variable (h : Keeps t t')
include h

theorem step {part : Text} {next : Place} (hstep : t.step place part = .ok next) :
    t'.step place part = .ok next := by
  have hdirectory := directory_of_step hstep
  rw [step_of_directory hdirectory] at hstep
  rw [step_of_directory ((h.directory_iff place).2 hdirectory)]
  by_cases hstay : part = [] ∨ part = ".".toList
  · rwa [if_pos hstay] at hstep ⊢
  rw [if_neg hstay] at hstep ⊢
  by_cases hup : part = "..".toList
  · rwa [if_pos hup] at hstep ⊢
  rw [if_neg hup] at hstep ⊢
  by_cases hlong : longestName < part.byteLength
  · rwa [if_pos hlong] at hstep ⊢
  rw [if_neg hlong] at hstep ⊢
  cases hnode : t.node? (place ++ [part]) with
  | none =>
    rw [hnode] at hstep
    cases hstep
  | some node =>
    rw [hnode] at hstep
    cases hnode' : t'.node? (place ++ [part]) with
    | none => exact absurd hnode' (h.present _ (hnode ▸ nofun))
    | some node' => exact hstep

theorem walk {parts : List Text} {last : Place} (hwalk : t.walk place parts = .ok last) :
    t'.walk place parts = .ok last := by
  induction parts generalizing place with
  | nil => exact hwalk
  | cons part parts ih =>
    rw [FileTree.walk] at hwalk ⊢
    cases hstep : t.step place part with
    | error e =>
      rw [hstep] at hwalk
      cases hwalk
    | ok next =>
      rw [hstep] at hwalk
      rw [h.step hstep]
      exact ih hwalk

theorem start_eq (path : Text) : t'.start path = t.start path := by
  unfold start
  rw [h.workingDirectory]

theorem locate (hlocate : t.locate path = .ok place) : t'.locate path = .ok place := by
  unfold FileTree.locate at hlocate ⊢
  cases hcheck : checkPath path with
  | error e =>
    rw [hcheck] at hlocate
    cases hlocate
  | ok u =>
    rw [hcheck] at hlocate
    rw [h.start_eq]
    exact h.walk hlocate

theorem creates (hcreates : t.Creates path directory name) : t'.Creates path directory name where
  checked := hcreates.checked
  walked := by
    obtain ⟨before, hparts, hwalk⟩ := hcreates.walked
    rw [h.start_eq]
    exact ⟨before, hparts, h.walk hwalk⟩
  isDirectory := (h.directory_iff _).2 hcreates.isDirectory
  isName := hcreates.isName
  short := hcreates.short
  free := fun hdirectory => hcreates.free ((h.directory_iff _).1 hdirectory)

theorem create {changed : FileTree} (hcreate : t.create path = .ok (place, changed)) :
    t'.create path = .ok (place, t'.put place (.file [])) := by
  obtain ⟨directory, name, hcreates, hplace, -⟩ := create_eq_ok_iff.1 hcreate
  exact create_eq_ok_iff.2 ⟨directory, name, h.creates hcreates, hplace, rfl⟩

/-- the larger tree has the file where the smaller one could create it -/
theorem locate_of_create {changed : FileTree} (hcreate : t.create path = .ok (place, changed))
    (hthere : t'.node? place ≠ none) : t'.locate path = .ok place := by
  obtain ⟨directory, name, hcreates, rfl, -⟩ := create_eq_ok_iff.1 hcreate
  exact (h.creates hcreates).locate_eq hthere

end Keeps

end EdgeDot.FileTree
