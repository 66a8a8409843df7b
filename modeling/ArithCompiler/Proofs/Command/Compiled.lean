import ArithCompiler.Command.Run

/-! # What a run compiles

The program of a run is determined by three things that the options name: the source, the platform
and the registers. Each of them is written out here without the stages of the command, and so is the
text of a program.
-/

namespace ArithCompiler

/-- The text of lines: each of them in order, with a line feed after it. -/
def unlines : List String → String
  | [] => ""
  | line :: lines => line ++ "\n" ++ unlines lines

theorem text_eq_unlines (lines : List String) : Layout.text lines = unlines lines := by
  induction lines with
  | nil => rfl
  | cons line lines ih =>
    rw [unlines, ← ih, Layout.text, Layout.text]
    simp [String.join_cons]

namespace World

/-- What is read as the source under a name. A hyphen is standard input, which is reported as
`<stdin>`; any other name is a path, and the name to report. -/
inductive Sources (w : World) : String → Input → Prop
  | stdin : Sources w "-" (.ofBytes "<stdin>" w.stdin)
  | file {path : String} {contents : ByteArray} (hne : path ≠ "-")
      (hopen : w.files.openRead path = .ok (.file contents)) :
      Sources w path (.ofBytes path contents)
  | stream {path : String} (hne : path ≠ "-")
      (hopen : w.files.openRead path = .ok (.device .stdin)) :
      Sources w path (.ofBytes path w.stdin)
  | device {path : String} {d : Device} (hne : path ≠ "-") (hd : d ≠ .stdin)
      (hopen : w.files.openRead path = .ok (.device d)) : Sources w path (.ofBytes path .empty)
  | directory {path : String} (hne : path ≠ "-")
      (hopen : w.files.openRead path = .ok .directory) :
      Sources w path (.ofLines path [.error .isDirectory])

theorem source_eq_ok_iff {w : World} {name : String} {input : Input} :
    w.source name = .ok input ↔ w.Sources name input := by
  constructor
  · intro h
    rw [source] at h
    by_cases hname : name = "-"
    · rw [if_pos hname] at h
      cases h
      rw [hname]
      exact .stdin
    · rw [if_neg hname] at h
      split at h
      · cases h
      · next hopen =>
        cases h
        exact .file hname hopen
      · next hopen =>
        cases h
        exact .stream hname hopen
      · next hd hopen =>
        cases h
        exact .device hname hd hopen
      · next hopen =>
        cases h
        exact .directory hname hopen
  · intro h
    cases h with
    | stdin => rfl
    | file hne hopen => rw [source, if_neg hne, hopen]
    | stream hne hopen => rw [source, if_neg hne, hopen]
    | @device _ d hne hd hopen =>
      rw [source, if_neg hne, hopen]
      cases d with
      | stdin => exact absurd rfl hd
      | _ => rfl
    | directory hne hopen => rw [source, if_neg hne, hopen]

/-- The source that the options name is read as the tree. -/
def Parses (w : World) (o : Options) (e : Expr) : Prop :=
  ∃ input rest, w.Sources (o.input.getD "-") input ∧ parse input = (.ok e, rest)

end World

namespace Options

/-- The instruction set of the platform that the options name. A name that is not given is that of
the host, and the case of letters does not matter. -/
def Targets (o : Options) : Arch → Prop
  | .aarch64 =>
    (o.system.getD "linux").toLower ∈ ["darwin", "macos"] ∧
      (o.machine.getD "x86_64").toLower ∈ ["arm64", "aarch64"]
  | .x8664 =>
    (o.system.getD "linux").toLower = "linux" ∧
      (o.machine.getD "x86_64").toLower ∈ ["x86_64", "amd64", "x64"]

theorem namedBy_iff {names : List String} {name : String} :
    namedBy names name = true ↔ name.toLower ∈ names := List.contains_iff_mem

/-- No system belongs to two platforms. -/
theorem detect_eq_ok_iff {system machine : String} {p : Platform} :
    Platform.detect system machine = .ok p ↔
      system.toLower ∈ p.systems ∧ machine.toLower ∈ p.machines := by
  rw [Platform.detect]
  constructor
  · intro h
    split at h
    · next p' hfind =>
      cases h
      have hnamed := List.find?_some hfind
      rwa [Bool.and_eq_true, namedBy_iff, namedBy_iff] at hnamed
    · cases h
  · rintro ⟨hsystem, hmachine⟩
    have hnamed : namedBy p.systems system ∧ namedBy p.machines machine :=
      ⟨namedBy_iff.2 hsystem, namedBy_iff.2 hmachine⟩
    cases p with
    | darwinArm64 => simp [Platform.all, hnamed]
    | linuxX8664 =>
      have hother : namedBy Platform.darwinArm64.systems system = false := by
        apply Bool.eq_false_iff.2
        intro h
        rw [namedBy_iff, List.mem_singleton.1 hsystem] at h
        exact absurd h (by decide)
      simp [Platform.all, hnamed, hother]

theorem targets_iff {o : Options} {arch : Arch} :
    o.Targets arch ↔ ∃ p, o.platform = .ok p ∧ p.arch = arch := by
  simp only [platform, detect_eq_ok_iff]
  constructor
  · intro h
    cases arch with
    | aarch64 => exact ⟨.darwinArm64, h, rfl⟩
    | x8664 => exact ⟨.linuxX8664, ⟨List.mem_singleton.2 h.1, h.2⟩, rfl⟩
  · rintro ⟨p, h, rfl⟩
    cases p with
    | darwinArm64 => exact h
    | linuxX8664 => exact ⟨List.mem_singleton.1 h.1, h.2⟩

/-- The names between the commas of a list of registers, without the white space around them. -/
def registerList (list : String) : List String :=
  ((list.toList.splitOn ',').map fun name =>
    String.ofList ((name.dropWhile isWhiteSpace).reverse.dropWhile isWhiteSpace).reverse).filter
      (· ≠ "")

theorem commaWords_eq (list : String) : commaWords list = registerList list := by
  have hempty (name : List Char) : (!name.isEmpty) = decide (String.ofList name ≠ "") := by
    cases name <;> simp
  rw [commaWords, registerList, List.filter_map, List.map_map, List.filter_map]
  congr 1
  exact List.filter_congr fun name _ => hempty (trimWhiteSpace name)

end Options

namespace World

/-- The source of a run is compiled to the program. Where that goes is no part of it. -/
def Compiles (w : World) (o : Options) (program : String) : Prop :=
  ∃ e arch lines, w.Parses o e ∧ o.Targets arch ∧
    emit e arch (o.registers.map Options.registerList) = .ok lines ∧ program = unlines lines

end World

end ArithCompiler
