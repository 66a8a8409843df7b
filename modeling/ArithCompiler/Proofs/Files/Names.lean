import ArithCompiler.Files.Volume

/-! # Files by their names

A file that is written changes alone. A plain name stands for the file of that name in the working
directory, be it there or not, as long as that directory is no part of the system's own.
-/

namespace ArithCompiler

theorem lookup_cons_ite (place location : Location) (contents : ByteArray)
    (files : List (Location × ByteArray)) :
    ((place, contents) :: files).lookup location =
      if location = place then some contents else files.lookup location := by
  by_cases h : location = place
  · rw [if_pos h, h, List.lookup_cons_self]
  · have hother : (location == place) = false := beq_false_of_ne h
    rw [if_neg h, List.lookup_cons, hother]

theorem lookup_filter_ne {files : List (Location × ByteArray)} {location other : Location}
    (h : other ≠ location) :
    (files.filter fun entry => entry.1 ≠ location).lookup other = files.lookup other := by
  induction files with
  | nil => rfl
  | cons entry files ih =>
    obtain ⟨place, contents⟩ := entry
    by_cases hplace : place = location
    · rw [List.filter_cons_of_neg (by simpa using hplace), ih, lookup_cons_ite, hplace, if_neg h]
    · rw [List.filter_cons_of_pos (by simpa using hplace), lookup_cons_ite, lookup_cons_ite, ih]

/-- A file that is written holds the contents, and all other files are as they were. -/
theorem Volume.lookup_write {v after : Volume} {contents : ByteArray} {s : Sink}
    (h : v.write contents s = .ok after) (location : Location) :
    after.files.lookup location =
      if s = .file location then some contents else v.files.lookup location := by
  cases s with
  | file place =>
    cases h
    rw [lookup_cons_ite]
    by_cases hplace : location = place
    · simp [hplace]
    · rw [if_neg hplace, lookup_filter_ne hplace, if_neg (by simpa using Ne.symm hplace)]
  | device d =>
    have hsame : v = after := by
      cases d with
      | full =>
        rw [Volume.write] at h
        split at h
        · exact Except.ok.inj h
        · cases h
      | _ => exact Except.ok.inj h
    simp [hsame]

/-- A directory that holds neither devices nor the state of the system. -/
def Location.Ordinary (directory : Location) : Prop :=
  ∃ first rest, directory = first :: rest ∧ first ≠ "dev" ∧ first ≠ "proc"

theorem Location.Ordinary.resolve_child {directory : Location} (h : directory.Ordinary)
    (name : String) : resolve (directory ++ [name]) = directory ++ [name] := by
  obtain ⟨first, rest, rfl, hdev, -⟩ := h
  have hfirst : (first == "dev") = false := beq_false_of_ne hdev
  simp [resolve, links, List.lookup_cons, hfirst]

theorem Location.Ordinary.isLive_child {directory : Location} (h : directory.Ordinary)
    (name : String) : (directory ++ [name]).isLive = false := by
  obtain ⟨first, rest, rfl, -, hproc⟩ := h
  simp [isLive, List.isPrefixOf, Ne.symm hproc]

namespace Volume

/-- A name under which the working directory has a file, or can get one. -/
structure Offers (v : Volume) (name : String) : Prop where
  noSlash : '/' ∉ name.toList
  noDots : name ∉ ["", ".", ".."]
  short : name.utf8ByteSize ≤ 255
  ordinary : v.home.Ordinary
  home : v.node? v.home = some .directory
  free : v.node? (v.home ++ [name]) = none ∨
    ∃ contents, v.node? (v.home ++ [name]) = some (.file contents)

namespace Offers

variable {v : Volume} {name : String}

theorem ne_dots (h : v.Offers name) : name ≠ "" ∧ name ≠ "." ∧ name ≠ ".." := by
  simpa using h.noDots

theorem child (h : v.Offers name) : Location.child v.home name = .ok (v.home ++ [name]) := by
  obtain ⟨hempty, hdot, hdots⟩ := h.ne_dots
  have hshort : ¬255 < name.utf8ByteSize := Nat.not_lt.2 h.short
  simp [Location.child, hempty, hdot, hdots, Location.maxNameBytes, hshort,
    h.ordinary.resolve_child]

theorem checkPath (h : v.Offers name) : checkPath name = .ok () := by
  have hlong : ¬4095 < name.utf8ByteSize := Nat.not_lt.2 (Nat.le_trans h.short (by decide))
  simp [Volume.checkPath, h.ne_dots.1, Location.maxPathBytes, hlong]

theorem parts (h : v.Offers name) : parts name = [name] := by
  rw [Volume.parts, List.splitOn_eq_singleton h.noSlash, List.map_singleton, String.ofList_toList]

theorem origin (h : v.Offers name) : v.origin name = v.home := by
  rw [Volume.origin, if_neg]
  intro hslash
  exact h.noSlash (List.mem_of_head? hslash)

theorem enter (h : v.Offers name) : v.enter v.home = .ok () := by rw [Volume.enter, h.home]

theorem openChild (h : v.Offers name) :
    v.openChild v.home name = .ok (.file (v.home ++ [name])) := by
  obtain hfree | ⟨contents, hfree⟩ := h.free
  · simp [Volume.openChild, h.child, hfree, h.ordinary.isLive_child, bind, Except.bind]
  · simp [Volume.openChild, h.child, hfree, bind, Except.bind]

theorem openWrite (h : v.Offers name) : v.openWrite name = .ok (.file (v.home ++ [name])) := by
  obtain ⟨hempty, hdot, hdots⟩ := h.ne_dots
  have hstem : stem [name] = [name] := by simp [stem, hempty]
  simp [Volume.openWrite, h.checkPath, h.parts, hstem, h.origin, follow, h.enter, hdot, hdots,
    h.openChild, bind, Except.bind]

theorem openRead {contents : ByteArray} (h : v.Offers name)
    (hcontents : v.files.lookup (v.home ++ [name]) = some contents) :
    v.openRead name = .ok (.file contents) := by
  have hnode : v.node? (v.home ++ [name]) = some (.file contents) := by rw [node?, hcontents]
  simp [Volume.openRead, h.checkPath, h.parts, h.origin, follow, h.enter, h.child, hnode, bind,
    Except.bind]

end Offers

end Volume

end ArithCompiler
