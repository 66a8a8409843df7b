import ArithCompiler.Proofs.Command.Compiled
import ArithCompiler.Proofs.Files.Names

/-! # What a run leaves behind

A run that fails has written nothing, and one that succeeds has handed its result to exactly one
receiver: standard output, what a path leads to, or the linker. Which one it is depends on the
options alone, and the program that it gets does not depend on which one it is.
-/

namespace ArithCompiler

/-- What can get the result of a run. -/
inductive Receiver where
  | sink (s : Sink)
  | linker
  deriving DecidableEq, Repr, Inhabited

/-- A run has handed the text to the receiver and nothing to any other: neither to the standard
streams, nor to the linker, nor to any file. -/
structure Handed (before : Volume) (out : Outcome) (receiver : Receiver) (text : String) :
    Prop where
  stdout : out.stdout = if receiver = .sink (.device .stdout) then text else ""
  stderr : out.stderr = if receiver = .sink (.device .stderr) then text else ""
  linker : out.job.map LinkJob.assembly = if receiver = .linker then some text else none
  files : ∀ location, out.files.files.lookup location =
    if receiver = .sink (.file location) then some text.toUTF8 else before.files.lookup location

/-- An argument that a process can be given: it has no NUL and is not too long. -/
def IsArgument (arg : String) : Prop := '\x00' ∉ arg.toList ∧ arg.utf8ByteSize ≤ 131071

instance (arg : String) : Decidable (IsArgument arg) :=
  inferInstanceAs (Decidable (_ ∧ _))

theorem Platform.isArgument_of_mem {p : Platform} {output arg : String} {strip : Bool}
    (houtput : IsArgument output) (h : arg ∈ p.linkArguments output strip) : IsArgument arg := by
  have hfixed : ∀ word ∈ ["-o", "-xassembler", "-", "-s"] ++ p.linkOptions, IsArgument word := by
    cases p <;> decide
  have hcases : arg = output ∨ arg ∈ ["-o", "-xassembler", "-", "-s"] ++ p.linkOptions := by
    cases strip <;> simp [linkArguments] at h ⊢ <;> grind
  rcases hcases with rfl | hmem
  · exact houtput
  · exact hfixed arg hmem

namespace Linker

variable {linker : Linker} {job given : LinkJob}

/-- A linker that is started gets the whole job. -/
theorem eq_of_run (h : (linker.run job).2 = some given) : given = job := by
  unfold run at h
  grind

/-- A linker that ends with status zero takes every job that it can be given. -/
theorem run_exit_zero (h : ∀ arg ∈ job.arguments, IsArgument arg) :
    run (some (.exit 0)) job = (.ok (), some job) := by
  have hnul : job.arguments.any (·.contains '\x00') = false := by
    rw [List.any_eq_false]
    intro arg harg
    simpa using (h arg harg).1
  have hlong : job.arguments.any (maxArgumentBytes < ·.utf8ByteSize) = false := by
    rw [List.any_eq_false]
    intro arg harg hlt
    exact absurd (of_decide_eq_true hlt) (Nat.not_lt.2 (h arg harg).2)
  rw [run, hnul, hlong]
  rfl

/-- A linker that succeeds was started. -/
theorem job_of_run_ok {started : Option LinkJob} (h : linker.run job = (.ok (), started)) :
    started = some job := by
  unfold run at h
  grind

end Linker

namespace Delivery

def text : Delivery → String
  | print text => text
  | write _ text => text
  | link _ job => job.assembly

/-- The receiver that a delivery is meant for. -/
def For (files : Volume) : Delivery → Receiver → Prop
  | print _, receiver => receiver = .sink (.device .stdout)
  | write path _, receiver => ∃ s, files.openWrite path = .ok s ∧ receiver = .sink s
  | link _ _, receiver => receiver = .linker

theorem For.unique {files : Volume} {d : Delivery} {receiver other : Receiver}
    (h : d.For files receiver) (ho : d.For files other) : receiver = other := by
  cases d with
  | print text => exact h.trans (Eq.symm ho)
  | link output job => exact h.trans (Eq.symm ho)
  | write path text =>
    obtain ⟨s, hopen, rfl⟩ := h
    obtain ⟨s', hopen', rfl⟩ := ho
    rw [hopen] at hopen'
    cases hopen'
    rfl

end Delivery

namespace World

theorem handed_print (w : World) (text : String) :
    Handed w.files (w.deliver (.print text)) (.sink (.device .stdout)) text := by
  constructor <;> simp [deliver]

/-- A delivery that fails has changed nothing, and any other is handed to its receiver alone. -/
theorem deliver_cases (w : World) (d : Delivery) :
    ((w.deliver d).code = 1 ∧ (w.deliver d).stdout = "" ∧ (w.deliver d).files = w.files) ∨
      ((w.deliver d).code = 0 ∧
        ∃ receiver, d.For w.files receiver ∧ Handed w.files (w.deliver d) receiver d.text) := by
  cases d with
  | print text =>
    exact .inr ⟨rfl, .sink (.device .stdout), rfl, w.handed_print text⟩
  | write path text =>
    rw [deliver]
    split
    · exact .inl ⟨rfl, rfl, rfl⟩
    · next s hopen =>
      split
      · exact .inl ⟨rfl, rfl, rfl⟩
      · next files hwrite =>
        right
        refine ⟨rfl, .sink s, ⟨s, hopen, rfl⟩, ?_⟩
        constructor
        · simp [Delivery.text]
        · simp [Delivery.text]
        · simp
        · simpa [Delivery.text] using Volume.lookup_write hwrite
  | link output job =>
    rw [deliver]
    split
    · next started hrun =>
      right
      refine ⟨rfl, .linker, rfl, ?_⟩
      constructor <;> simp [Delivery.text, Linker.job_of_run_ok hrun]
    · exact .inl ⟨rfl, rfl, rfl⟩

/-- The linker is only given what is meant for it. -/
theorem deliver_job {w : World} {d : Delivery} {job : LinkJob} (h : (w.deliver d).job = some job) :
    d.For w.files .linker ∧ job.assembly = d.text := by
  cases d with
  | print text => cases h
  | write path text =>
    rw [deliver] at h
    split at h
    · cases h
    · split at h <;> cases h
  | link output given =>
    have hgiven : (w.linker.run given).2 = some job := by
      rw [deliver] at h
      split at h
      · next hrun =>
        rw [hrun]
        exact h
      · next hrun =>
        rw [hrun]
        exact h
    exact ⟨rfl, congrArg LinkJob.assembly (Linker.eq_of_run hgiven)⟩

end World

namespace Options

/-- The receiver that the options ask for: assembly goes to standard output or to what the output
name leads to, and anything else goes to the linker. Without a name the output is `a.out`. -/
def Addresses (o : Options) (files : Volume) : Receiver → Prop
  | .sink s => o.assembly = true ∧
    if o.output.getD "a.out" = "-" then s = .device .stdout
    else files.openWrite (o.output.getD "a.out") = .ok s
  | .linker => o.assembly = false ∧ o.output.getD "a.out" ≠ "-"

theorem deliver_eq_ok {o : Options} {p : Platform} {lines : List String} {d : Delivery}
    (h : o.deliver p lines = .ok d) :
    d.text = unlines lines ∧
      (∀ files receiver, d.For files receiver ↔ o.Addresses files receiver) ∧
      ∀ output job, d = .link output job →
        job.arguments = p.linkArguments (o.output.getD "a.out") o.strip := by
  rw [deliver] at h
  rw [← text_eq_unlines]
  split at h
  · next hassembly houtput =>
    cases h
    rw [outputName] at houtput
    refine ⟨rfl, fun files receiver => ?_, fun output job hlink => nomatch hlink⟩
    cases receiver <;> simp [Delivery.For, Addresses, hassembly, houtput]
  · next hassembly houtput =>
    cases h
    have hne : o.output.getD "a.out" ≠ "-" := houtput
    refine ⟨rfl, fun files receiver => ?_, fun output job hlink => nomatch hlink⟩
    cases receiver <;> simp [Delivery.For, Addresses, outputName, hassembly, hne]
  · cases h
  · next hassembly houtput =>
    cases h
    have hne : o.output.getD "a.out" ≠ "-" := houtput
    refine ⟨rfl, fun files receiver => ?_, fun output job hlink => ?_⟩
    · cases receiver <;> simp [Delivery.For, Addresses, hassembly, hne]
    · cases hlink
      rfl

end Options

namespace World

/-- The receiver takes what it is handed: a device that is not full, any file, or a linker that can
be given the output's name and ends with status zero. -/
def Accepts (w : World) (o : Options) : Receiver → Prop
  | .sink s => s ≠ .device .full
  | .linker => w.linker = some (.exit 0) ∧ IsArgument (o.output.getD "a.out")

/-- The work of a run on its source has this result. -/
def Works (w : World) (o : Options) (d : Delivery) : Prop :=
  ∃ input, w.source o.inputName = .ok input ∧ o.process input = .ok d

/-- Where the work fails the run has changed nothing, and else its result is delivered. -/
theorem process_cases (w : World) (o : Options) :
    (∃ failure, w.process o = w.fail failure) ∨
      ∃ d, w.process o = w.deliver d ∧ w.Works o d := by
  rw [process]
  split
  · next failure hsource => exact .inl ⟨failure, rfl⟩
  · next input hsource =>
    split
    · next failure hprocess => exact .inl ⟨failure, rfl⟩
    · next d hprocess => exact .inr ⟨d, rfl, input, hsource, hprocess⟩

/-- Work that has a result is delivered. -/
theorem process_of_works {w : World} {o : Options} {d : Delivery} (h : w.Works o d) :
    w.process o = w.deliver d := by
  obtain ⟨input, hsource, hprocess⟩ := h
  rw [process, hsource]
  simp only [hprocess]

/-- The work is the value of the source, if that is asked for. -/
theorem works_evaluation_iff {w : World} {o : Options} {d : Delivery} (ho : o.evaluate = true) :
    w.Works o d ↔
      ∃ e value, w.Parses o e ∧ e.eval = .ok value ∧ d = .print (value.toInt.repr ++ "\n") := by
  constructor
  · rintro ⟨input, hsource, hprocess⟩
    rw [Options.process] at hprocess
    split at hprocess
    · cases hprocess
    · next e rest hparse =>
      rw [if_pos ho, Options.evaluation] at hprocess
      split at hprocess
      · next value heval =>
        cases hprocess
        exact ⟨e, value, ⟨input, rest, source_eq_ok_iff.1 hsource, hparse⟩, heval, rfl⟩
      · cases hprocess
  · rintro ⟨e, value, ⟨input, rest, hsource, hparse⟩, heval, rfl⟩
    refine ⟨input, source_eq_ok_iff.2 hsource, ?_⟩
    simp [Options.process, hparse, ho, Options.evaluation, heval]

/-- Otherwise the work is the program of the source, for the receiver that is asked for. -/
theorem works_compilation_iff {w : World} {o : Options} {d : Delivery} (ho : o.evaluate = false) :
    w.Works o d ↔ ∃ e p lines, w.Parses o e ∧ o.platform = .ok p ∧
      emit e p.arch (o.registers.map Options.registerList) = .ok lines ∧
      o.deliver p lines = .ok d := by
  have hregisters : o.registers.map Options.registerList = o.registerNames := by
    rw [Options.registerNames, funext Options.commaWords_eq]
  rw [hregisters]
  constructor
  · rintro ⟨input, hsource, hprocess⟩
    rw [Options.process] at hprocess
    split at hprocess
    · cases hprocess
    · next e rest hparse =>
      rw [ho, if_neg (by simp), Options.compilation] at hprocess
      split at hprocess
      · cases hprocess
      · next p hplatform =>
        split at hprocess
        · cases hprocess
        · next lines hemit =>
          exact ⟨e, p, lines, ⟨input, rest, source_eq_ok_iff.1 hsource, hparse⟩, hplatform, hemit,
            hprocess⟩
  · rintro ⟨e, p, lines, ⟨input, rest, hsource, hparse⟩, hplatform, hemit, hdeliver⟩
    refine ⟨input, source_eq_ok_iff.2 hsource, ?_⟩
    simp [Options.process, hparse, ho, Options.compilation, hplatform, hemit, hdeliver]

theorem Works.compiles {w : World} {o : Options} {d : Delivery} (h : w.Works o d)
    (ho : o.evaluate = false) :
    w.Compiles o d.text ∧ ∀ receiver, d.For w.files receiver ↔ o.Addresses w.files receiver := by
  obtain ⟨e, p, lines, hparses, hplatform, hemit, hdeliver⟩ := (works_compilation_iff ho).1 h
  obtain ⟨htext, hfor, -⟩ := Options.deliver_eq_ok hdeliver
  exact ⟨⟨e, p.arch, lines, hparses, Options.targets_iff.2 ⟨p, hplatform, rfl⟩, hemit, htext⟩,
    hfor w.files⟩

/-- A program with a receiver is the result of the work. -/
theorem Compiles.works {w : World} {o : Options} {program : String} {receiver : Receiver}
    (h : w.Compiles o program) (ho : o.evaluate = false)
    (hreceiver : o.Addresses w.files receiver) :
    ∃ d, w.Works o d ∧ d.text = program := by
  obtain ⟨e, arch, lines, hparses, htargets, hemit, rfl⟩ := h
  obtain ⟨p, hplatform, rfl⟩ := Options.targets_iff.1 htargets
  have hdeliver : ∃ d, o.deliver p lines = .ok d := by
    rw [Options.deliver]
    split
    · exact ⟨_, rfl⟩
    · exact ⟨_, rfl⟩
    · next hassembly houtput =>
      cases receiver with
      | sink s => simp [Options.Addresses, hassembly] at hreceiver
      | linker => exact absurd houtput hreceiver.2
    · exact ⟨_, rfl⟩
  obtain ⟨d, hdeliver⟩ := hdeliver
  exact ⟨d, (works_compilation_iff ho).2 ⟨e, p, lines, hparses, hplatform, hemit, hdeliver⟩,
    (Options.deliver_eq_ok hdeliver).1⟩

/-- A receiver that takes what it is handed makes the delivery succeed. -/
theorem Works.code_of_accepts {w : World} {o : Options} {d : Delivery} {receiver : Receiver}
    (h : w.Works o d) (ho : o.evaluate = false) (hfor : d.For w.files receiver)
    (haccepts : w.Accepts o receiver) : (w.deliver d).code = 0 := by
  cases d with
  | print text => rfl
  | write path text =>
    obtain ⟨s, hopen, rfl⟩ := hfor
    have hwrite : ∃ files, w.files.write text.toUTF8 s = .ok files := by
      rcases s with location | d
      · exact ⟨_, rfl⟩
      · cases d with
        | full => exact absurd rfl haccepts
        | _ => exact ⟨_, rfl⟩
    obtain ⟨files, hwrite⟩ := hwrite
    rw [deliver, hopen]
    simp only [hwrite]
  | link output job =>
    cases hfor
    obtain ⟨hlinker, houtput⟩ := haccepts
    obtain ⟨_, p, lines, -, -, -, hdeliver⟩ := (works_compilation_iff ho).1 h
    have harguments := (Options.deliver_eq_ok hdeliver).2.2 output job rfl
    have hjob : ∀ arg ∈ job.arguments, IsArgument arg := by
      rw [harguments]
      exact fun arg => Platform.isArgument_of_mem houtput
    rw [deliver, hlinker, Linker.run_exit_zero hjob]

/-- A receiver that takes what it is handed is handed the work. -/
theorem Works.handed {w : World} {o : Options} {d : Delivery} {receiver : Receiver}
    (h : w.Works o d) (ho : o.evaluate = false) (hreceiver : o.Addresses w.files receiver)
    (haccepts : w.Accepts o receiver) :
    (w.deliver d).code = 0 ∧ Handed w.files (w.deliver d) receiver d.text := by
  have hfor : d.For w.files receiver := ((h.compiles ho).2 receiver).2 hreceiver
  have hcode : (w.deliver d).code = 0 := h.code_of_accepts ho hfor haccepts
  obtain ⟨hfailed, -⟩ | ⟨-, other, hother, hhanded⟩ := w.deliver_cases d
  · rw [hcode] at hfailed
    cases hfailed
  · rw [hfor.unique hother]
    exact ⟨hcode, hhanded⟩

section Run

variable {w : World} {args : List String} {read : List String → Invocation}

theorem run_eq_process {o : Options} (h : read args = .run o) : w.run args read = w.process o := by
  rw [run, h]

theorem run_failed (h : (w.run args read).code ≠ 0) :
    (w.run args read).stdout = "" ∧ (w.run args read).files = w.files := by
  cases hinvocation : read args with
  | help | version => simp [run, hinvocation] at h
  | misuse => simp [run, hinvocation]
  | run o =>
    rw [run_eq_process hinvocation] at h ⊢
    obtain ⟨failure, hfail⟩ | ⟨d, hdeliver, -⟩ := w.process_cases o
    · rw [hfail]
      exact ⟨rfl, rfl⟩
    · rw [hdeliver] at h ⊢
      obtain ⟨-, hstdout, hfiles⟩ | ⟨hcode, -⟩ := w.deliver_cases d
      · exact ⟨hstdout, hfiles⟩
      · exact absurd hcode h

/-- A run that succeeds has handed the result of its work to the receiver it is for. -/
theorem run_succeeded (h : (w.run args read).code = 0) (hhelp : read args ≠ .help)
    (hversion : read args ≠ .version) :
    ∃ o d receiver, read args = .run o ∧ w.Works o d ∧ d.For w.files receiver ∧
      Handed w.files (w.run args read) receiver d.text := by
  cases hinvocation : read args with
  | help => exact absurd hinvocation hhelp
  | version => exact absurd hinvocation hversion
  | misuse => simp [run, hinvocation] at h
  | run o =>
    rw [run_eq_process hinvocation] at h ⊢
    obtain ⟨failure, hfail⟩ | ⟨d, hdeliver, hworks⟩ := w.process_cases o
    · rw [hfail] at h
      cases h
    · rw [hdeliver] at h ⊢
      obtain ⟨hcode, -⟩ | ⟨-, receiver, hreceiver, hhanded⟩ := w.deliver_cases d
      · rw [hcode] at h
        cases h
      · exact ⟨o, d, receiver, rfl, hworks, hreceiver, hhanded⟩

/-- The linker runs only for a result that is meant for it. -/
theorem run_linked {job : LinkJob} (h : (w.run args read).job = some job) :
    ∃ o d, read args = .run o ∧ w.Works o d ∧ d.For w.files .linker ∧ job.assembly = d.text := by
  cases hinvocation : read args with
  | help | version | misuse => simp [run, hinvocation] at h
  | run o =>
    rw [run_eq_process hinvocation] at h
    obtain ⟨failure, hfail⟩ | ⟨d, hdeliver, hworks⟩ := w.process_cases o
    · rw [hfail] at h
      cases h
    · rw [hdeliver] at h
      exact ⟨o, d, rfl, hworks, deliver_job h⟩

end Run

/-- A run is all or nothing, however its arguments are read. If it fails, nothing has been printed
and no file has changed. The linker runs only for a source that was compiled, and gets its whole
program, when neither the value nor assembly is asked for and the output has a name. If a run
succeeds, its value or its program is handed to the one receiver that the options ask for, and
nothing goes anywhere else; the program is the same for every receiver. And a value or a program is
handed over whenever there is one and its receiver takes it, where a plain name stands for the file
of the working directory. -/
theorem run_all_or_nothing (w : World) (args : List String) (read : List String → Invocation) :
    let out := w.run args read
    (out.code ≠ 0 → out.stdout = "" ∧ out.files = w.files) ∧
    (∀ job, out.job = some job → ∃ o, read args = .run o ∧ w.Compiles o job.assembly ∧
      o.evaluate = false ∧ o.assembly = false ∧ o.output.getD "a.out" ≠ "-") ∧
    (out.code = 0 → read args ≠ .help → read args ≠ .version → ∃ o, read args = .run o ∧
      (o.evaluate = false → ∃ program receiver, w.Compiles o program ∧
        o.Addresses w.files receiver ∧ Handed w.files out receiver program) ∧
      (o.evaluate = true → ∃ e value, w.Parses o e ∧ e.eval = .ok value ∧
        Handed w.files out (.sink (.device .stdout)) (value.toInt.repr ++ "\n"))) ∧
    (∀ o, read args = .run o →
      (∀ program receiver, o.evaluate = false → w.Compiles o program →
        o.Addresses w.files receiver → w.Accepts o receiver →
        out.code = 0 ∧ Handed w.files out receiver program) ∧
      ∀ e value, o.evaluate = true → w.Parses o e → e.eval = .ok value →
        out.code = 0 ∧
          Handed w.files out (.sink (.device .stdout)) (value.toInt.repr ++ "\n")) ∧
    ∀ name, name ≠ "-" → w.files.Offers name →
      (∀ contents, w.files.files.lookup (w.files.home ++ [name]) = some contents →
        w.Sources name (.ofBytes name contents)) ∧
      ∀ o : Options, o.assembly = true → o.output.getD "a.out" = name →
        o.Addresses w.files (.sink (.file (w.files.home ++ [name]))) := by
  refine ⟨run_failed, ?_, ?_, ?_, ?_⟩
  · intro job hjob
    obtain ⟨o, d, ho, hworks, hlinker, htext⟩ := run_linked hjob
    have heval : o.evaluate = false := by
      apply Bool.eq_false_iff.2
      intro heval
      obtain ⟨e, value, -, -, rfl⟩ := (works_evaluation_iff heval).1 hworks
      cases hlinker
    obtain ⟨hcompiles, hfor⟩ := hworks.compiles heval
    obtain ⟨hassembly, houtput⟩ := (hfor .linker).1 hlinker
    exact ⟨o, ho, htext ▸ hcompiles, heval, hassembly, houtput⟩
  · intro hcode hhelp hversion
    obtain ⟨o, d, receiver, ho, hworks, hreceiver, hhanded⟩ := run_succeeded hcode hhelp hversion
    refine ⟨o, ho, fun heval => ?_, fun heval => ?_⟩
    · obtain ⟨hcompiles, hfor⟩ := hworks.compiles heval
      exact ⟨d.text, receiver, hcompiles, (hfor receiver).1 hreceiver, hhanded⟩
    · obtain ⟨e, value, hparses, hvalue, rfl⟩ := (works_evaluation_iff heval).1 hworks
      cases hreceiver
      exact ⟨e, value, hparses, hvalue, hhanded⟩
  · intro o ho
    rw [run_eq_process ho]
    constructor
    · intro program receiver heval hcompiles hreceiver haccepts
      obtain ⟨d, hworks, rfl⟩ := hcompiles.works heval hreceiver
      rw [process_of_works hworks]
      exact hworks.handed heval hreceiver haccepts
    · intro e value heval hparses hvalue
      rw [process_of_works ((works_evaluation_iff heval).2 ⟨e, value, hparses, hvalue, rfl⟩)]
      exact ⟨rfl, handed_print w _⟩
  · intro name hne hoffers
    constructor
    · intro contents hcontents
      exact .file hne (hoffers.openRead hcontents)
    · rintro o hassembly rfl
      exact ⟨hassembly, by rw [if_neg hne, hoffers.openWrite]⟩

end World

end ArithCompiler
