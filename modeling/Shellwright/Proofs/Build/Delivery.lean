/-
What a build leaves behind.

A build has few ways to end, and all but one of them leave the files alone: only
the script of a source that was read and compiled is written, to the output file
alone.  The command line then prints the result or trusts that it was written.
-/
import Shellwright.CommandLine
import Shellwright.Proofs.Build.Files

namespace Shellwright

/-- The ways in which a build ends. -/
inductive Built (before : FileSystem) (path : String) (options : BuildOptions) :
    Except BuildError String → FileSystem → Prop
  | missing {cause : FileError} (hread : before.readText path = .error cause) :
      Built before path options (.error (.notFound path)) before
  | unreadable {cause : FileError} (hread : before.readText path =
      .error cause) :
      Built before path options (.error (.unreadable path cause)) before
  | notCompiled {source : String} {cause : CompileError} (base : Option String)
      (hread : before.readText path = .ok source)
      (htext : SourceFile.deliver ⟨path, source⟩ options.action options.shell =
        .error cause) :
      Built before path options (.error (.notCompiled cause base)) before
  | returned {source text : String} (hread : before.readText path = .ok source)
      (htext : SourceFile.deliver ⟨path, source⟩ options.action options.shell =
        .ok text)
      (hkept : ∀ out, options.action = .script → options.out ≠ some out) :
      Built before path options (.ok text) before
  | notWritten {source text out : String} {cause : FileError}
      (hread : before.readText path = .ok source)
      (htext : SourceFile.compile ⟨path, source⟩ options.shell = .ok text)
      (haction : options.action = .script) (hout : options.out = some out)
      (hwrite : before.writeText out text = .error cause) :
      Built before path options (.error (.notWritten out cause)) before
  | written {source text out : String} {after : FileSystem}
      (hread : before.readText path = .ok source)
      (htext : SourceFile.compile ⟨path, source⟩ options.shell = .ok text)
      (haction : options.action = .script) (hout : options.out = some out)
      (hwrite : before.writeText out text = .ok after) :
      Built before path options (.ok text)
        (if options.executable && options.shell =
          .bash then after.markExecutable out else after)

theorem deliver_script (file : SourceFile) (shell : Shell) :
    file.deliver .script shell = file.compile shell := rfl

/-! Programs on files, run on a file system that is a value. -/

section Runs

variable {α β : Type} {fs : FileSystem} {cause : FileError} {after : FileSystem}

theorem run_bind_files (x : StateM FileSystem α) (f : α → StateM FileSystem β) :
    (x >>= f).run fs = (f (x.run fs).1).run (x.run fs).2 := rfl

theorem run_messageBase (fs : FileSystem) (path : String) :
    ∃ base, (messageBase path : StateM FileSystem _).run fs = (base, fs) := by
  unfold messageBase
  split
  · exact ⟨none, rfl⟩
  · exact ⟨_, rfl⟩

theorem run_pathExists (path : String) :
    (FileAccess.pathExists path : StateM FileSystem Bool).run fs =
      ((fs.find path).isOk, fs) := rfl

theorem run_readText (path : String) :
    (FileAccess.readText path : StateM FileSystem _).run fs =
      (fs.readText path, fs) := rfl

theorem run_writeText_error {path text : String}
    (h : fs.writeText path text = .error cause) :
    (FileAccess.writeText path text : StateM FileSystem _).run fs =
      (.error cause, fs) := by
  simp only [FileAccess.writeText, run_bind_files, StateT.run_get, pure, h]
  rfl

theorem run_writeText_ok {path text : String}
    (h : fs.writeText path text = .ok after) :
    (FileAccess.writeText path text : StateM FileSystem _).run fs =
      (.ok (), after) := by
  simp only [FileAccess.writeText, run_bind_files, StateT.run_get, pure, h]
  rfl

theorem run_writeScript_error {path script : String}
    (h : fs.writeText path script = .error cause) (executable : Bool) :
    (writeScript path script executable : StateM FileSystem _).run fs =
      (.error (.notWritten path cause), fs) := by
  simp only [writeScript, run_bind_files, run_writeText_error h]
  rfl

theorem run_writeScript_ok {path script : String}
    (h : fs.writeText path script = .ok after) (executable : Bool) :
    (writeScript path script executable : StateM FileSystem _).run fs =
      (.ok (), if executable then after.markExecutable path else after) := by
  simp only [writeScript, run_bind_files, run_writeText_ok h]
  cases executable <;> rfl

end Runs

theorem FileSystem.readText_of_not_found {fs : FileSystem} {path : String}
    (h : (!(fs.find path).isOk) = true) : ∃ cause, fs.readText path =
      .error cause := by
  cases hfind : fs.find path with
  | error cause =>
      exact ⟨cause, by simp only [readText, hfind, bind, Except.bind]⟩
  | ok found => rw [hfind] at h; cases h

theorem buildFile_built (fs : FileSystem) (path : String)
    (options : BuildOptions) :
    Built fs path options
      ((buildFile path options : StateM FileSystem _).run fs).1
      ((buildFile path options : StateM FileSystem _).run fs).2 := by
  obtain ⟨base, hbase⟩ := run_messageBase fs path
  simp only [buildFile, run_bind_files, hbase]
  rw [run_pathExists]
  by_cases hfound : (!(fs.find path).isOk) = true
  · obtain ⟨cause, hread⟩ := FileSystem.readText_of_not_found hfound
    rw [if_pos hfound]
    exact .missing hread
  rw [if_neg hfound]
  simp only [run_bind_files, run_readText]
  cases hread : fs.readText path with
  | error cause => exact .unreadable hread
  | ok source =>
  dsimp only
  cases htext : SourceFile.deliver ⟨path, source⟩ options.action
    options.shell with
  | error cause => exact .notCompiled base hread htext
  | ok text =>
  dsimp only
  split
  · rename_i out haction hout
    rw [haction, deliver_script] at htext
    simp only [run_bind_files]
    cases hwrite : fs.writeText out text with
    | error cause =>
        rw [run_writeScript_error hwrite]
        exact .notWritten hread htext haction hout hwrite
    | ok after =>
        rw [run_writeScript_ok hwrite]
        exact .written hread htext haction hout hwrite
  · rename_i hkept
    exact .returned hread htext hkept

/-- The source text itself is at fault: it is refused, or it has no script and
the action asks for one. -/
def BuildOptions.Faults (options : BuildOptions) (source : String) : Prop :=
  (∃ error, parseSource source = .error error) ∨
    ∃ program error, parseSource source = .ok program ∧ options.action ≠ .tree ∧
      program.script options.shell = .error error

theorem faults_iff {options : BuildOptions} {path source : String} :
    options.Faults source ↔
      ∃ cause, SourceFile.deliver ⟨path, source⟩ options.action options.shell =
        .error cause := by
  unfold BuildOptions.Faults SourceFile.deliver SourceFile.program
  cases hparse : parseSource source with
  | error error => exact ⟨fun _ => ⟨_, rfl⟩, fun _ => .inl ⟨error, rfl⟩⟩
  | ok program =>
      cases hscript : program.script options.shell <;> cases haction :
        options.action <;>
        simp_all [Except.mapError, bind, Except.bind, pure, Except.pure]

namespace Built

variable {before after : FileSystem} {path text out : String}
  {options : BuildOptions} {result : Except BuildError String}
  {error : BuildError}

theorem unchanged_of_error
    (h : Built before path options (.error error) after) :
    after = before ∧ (error.code = 1 ∨ error.code = 2) := by
  cases h with
  | missing => exact ⟨rfl, .inl rfl⟩
  | unreadable => exact ⟨rfl, .inl rfl⟩
  | notCompiled => exact ⟨rfl, .inr rfl⟩
  | notWritten => exact ⟨rfl, .inl rfl⟩

theorem unchanged_of_kept (h : Built before path options (.ok text) after)
    (hkept : options.action ≠ .script ∨ options.out = none) :
    after = before := by
  cases h with
  | returned => rfl
  | written hread htext haction hout =>
      rcases hkept with hkept | hkept
      · exact absurd haction hkept
      · rw [hkept] at hout
        cases hout

theorem code_two_iff (h : Built before path options result after) :
    (∃ error, result = .error error ∧ error.code = 2) ↔
      ∃ source, before.readText path = .ok source ∧ options.Faults source := by
  simp only [@faults_iff _ path]
  cases h <;> simp [BuildError.code, deliver_script, *]

theorem code_one_iff (h : Built before path options result after) :
    (∃ error, result = .error error ∧ error.code = 1) ↔
      (∃ cause, before.readText path = .error cause) ∨
        ∃ source script out cause, before.readText path = .ok source ∧
          SourceFile.compile ⟨path, source⟩ options.shell = .ok script ∧
          options.action = .script ∧ options.out = some out ∧
          before.writeText out script = .error cause := by
  cases h with
  | missing hread => simp [BuildError.code, hread]
  | unreadable hread => simp [BuildError.code, hread]
  | notCompiled base hread htext =>
      constructor
      · rintro ⟨error, herror, hcode⟩
        cases herror
        cases hcode
      · rintro (⟨cause, hunread⟩ | ⟨source, script, out, cause, hsource,
          hscript, haction, -⟩)
        · rw [hread] at hunread
          cases hunread
        · rw [hread] at hsource
          cases hsource
          rw [haction, deliver_script, hscript] at htext
          cases htext
  | returned hread htext hkept =>
      constructor
      · rintro ⟨error, herror, -⟩
        cases herror
      · rintro (⟨cause, hunread⟩ | ⟨source, script, out, cause, -, -, haction,
          hout, -⟩)
        · rw [hread] at hunread
          cases hunread
        · exact absurd hout (hkept out haction)
  | notWritten hread htext haction hout hwrite => simp [BuildError.code, *]
  | written hread htext haction hout hwrite => simp [BuildError.code, *]

theorem written_of_script (h : Built before path options (.ok text) after)
    (haction : options.action = .script) (hout : options.out = some out) :
    ∃ source location file, before.readText path = .ok source ∧
      SourceFile.compile ⟨path, source⟩ options.shell = .ok text ∧
      before.findTarget out = .ok location ∧
      file.content = .ofText text ∧
      file.executable =
        (before.isExecutable location || options.executable &&
          options.shell = .bash) ∧
      before.Replaces after location file ∧
        after.find out = .ok (location, .file file) := by
  cases h with
  | returned hread htext hkept => exact absurd hout (hkept out haction)
  | @written source _ out' written hread htext haction hout' hwrite =>
      obtain rfl : out' = out := Option.some.inj (hout'.symm.trans hout)
      obtain ⟨location, htarget, hreplaces, hfind⟩ :=
        FileSystem.writeText_ok hwrite
      cases hmark : options.executable && decide (options.shell = .bash) with
      | false =>
          refine ⟨source, location, _, hread, htext, htarget, rfl, ?_,
            hreplaces, hfind⟩
          rw [Bool.or_false]
      | true =>
          obtain ⟨hmarked, hfound⟩ := FileSystem.markExecutable_of_find hfind
          refine ⟨source, location, _, hread, htext, htarget, rfl, ?_,
            hreplaces.trans hmarked, hfound⟩
          rw [Bool.or_true]

end Built

/-- A build that fails leaves every file as it was, and its code tells a source
at fault from a file at fault.  A build that succeeds changes at most the output
file, to hold the script and nothing else. -/
theorem buildFile_all_or_nothing {before after : FileSystem} {path : String}
    {options : BuildOptions} {result : Except BuildError String}
    (h : (buildFile path options : StateM FileSystem _).run before =
      (result, after)) :
    (∀ error, result = .error error →
      after = before ∧ (error.code = 1 ∨ error.code = 2)) ∧
    ((∃ error, result = .error error ∧ error.code = 2) ↔
      ∃ source, before.readText path = .ok source ∧ options.Faults source) ∧
    ((∃ error, result = .error error ∧ error.code = 1) ↔
      (∃ cause, before.readText path = .error cause) ∨
        ∃ source script out cause, before.readText path = .ok source ∧
          SourceFile.compile ⟨path, source⟩ options.shell = .ok script ∧
          options.action = .script ∧ options.out = some out ∧
          before.writeText out script = .error cause) ∧
    (∀ text, result = .ok text → options.action ≠ .script ∨ options.out = none →
      after = before) ∧
    ∀ text out, result = .ok text → options.action = .script →
      options.out = some out →
      ∃ source location file, before.readText path = .ok source ∧
        SourceFile.compile ⟨path, source⟩ options.shell = .ok text ∧
        before.findTarget out = .ok location ∧
        file.content = .ofText text ∧
        file.executable =
          (before.isExecutable location || options.executable &&
            options.shell = .bash) ∧
        before.Replaces after location file ∧
          after.find out = .ok (location, .file file) := by
  have hbuilt := buildFile_built before path options
  rw [h] at hbuilt
  refine ⟨?_, hbuilt.code_two_iff, hbuilt.code_one_iff, ?_, ?_⟩
  · rintro error rfl
    exact hbuilt.unchanged_of_error
  · rintro text rfl hkept
    exact hbuilt.unchanged_of_kept hkept
  · rintro text out rfl haction hout
    exact hbuilt.written_of_script haction hout

/-- A directory with one program in it. -/
def oneProgram : FileSystem :=
  (FileSystem.startingIn ["home"]).addFile "p.shb" (.ofText "print(1)\n")

theorem buildFile_all_or_nothing_executable :
    ∃ after location file,
      (buildFile "p.shb" ⟨.script, .bash, some "p.sh", true⟩ :
        StateM FileSystem _).run oneProgram =
        (.ok "#!/usr/bin/env bash\nprintf '%s\\n' \"1\"\n", after) ∧
      oneProgram.Replaces after location file ∧
        after.find "p.sh" = .ok (location, .file file) ∧
      file.content = .ofText "#!/usr/bin/env bash\nprintf '%s\\n' \"1\"\n" ∧
      file.executable = true := by
  have hok : ((buildFile "p.shb" ⟨.script, .bash, some "p.sh", true⟩ :
      StateM FileSystem _).run oneProgram).1 =
      .ok "#!/usr/bin/env bash\nprintf '%s\\n' \"1\"\n" := by
    decide +kernel
  generalize hrun : (buildFile "p.shb" ⟨.script, .bash, some "p.sh", true⟩ :
    StateM FileSystem _).run oneProgram = ended at hok ⊢
  obtain ⟨result, after⟩ := ended
  obtain rfl : result = _ := hok
  obtain ⟨source, location, file, -, -, -, hcontent, hexecutable, hreplaces,
      hfind⟩ :=
    (buildFile_all_or_nothing hrun).2.2.2.2 _ "p.sh" rfl rfl rfl
  refine ⟨after, location, file, rfl, hreplaces, hfind, hcontent, ?_⟩
  rw [hexecutable]
  exact Bool.or_true _

namespace CommandLine

variable {path : String} {args : List String} {options : BuildOptions}

/-- What is asked for is decided by the flags that are set in the end. -/
theorem Flags.read_build {flags : Flags}
    (h : flags.read args = .ok (.build path options)) :
    ∃ final : Flags, final.request = .ok (.build path options) := by
  fun_induction Flags.read flags args with
  | case1 flags => exact ⟨flags, h⟩
  | case2 | case3 | case4 | case6 => cases h
  | case5 flags name rest _ _ ih =>
      cases hselect : flags.selectShell name with
      | error error => rw [hselect] at h; cases h
      | ok next => rw [hselect] at h; exact ih next h
  | case7 flags arg _ _ _ _ out rest ih => exact ih h
  | case8 flags arg rest _ _ _ _ ih =>
      cases hsingle : flags.readSingle arg with
      | error error => rw [hsingle] at h; cases h
      | ok next => rw [hsingle] at h; exact ih next h

/-- A check has no output file. -/
theorem out_of_check (h : parse args = .ok (.build path options))
    (hcheck : options.action = .check) : options.out = none := by
  obtain ⟨flags, hrequest⟩ := Flags.read_build h
  unfold Flags.request at hrequest
  cases hflags : flags.check? with
  | error error => rw [hflags] at hrequest; cases hrequest
  | ok =>
  rw [hflags] at hrequest
  cases hfile : flags.file with
  | none => simp only [hfile] at hrequest; cases hrequest
  | some file =>
  simp only [hfile] at hrequest
  cases hrequest
  have hset : flags.check = true := by
    revert hcheck
    cases htree : flags.tree <;> cases hflag : flags.check <;>
      simp [Flags.action, htree, hflag]
  cases hout : flags.out with
  | none => rfl
  | some out => simp [Flags.check?, hset, hout] at hflags

/-- The result of a build can be seen: it is printed, or the output file holds
it. -/
def Delivered (options : BuildOptions) (text : String) (outcome : Outcome)
    (after : FileSystem) : Prop :=
  outcome.stdout = (if options.action = .script then text else text ++ "\n") ∨
    ∃ out, options.out = some out ∧ after.readText out = .ok text

theorem run_of_build {text : String} {before after : FileSystem}
    (hparse : parse args = .ok (.build path options))
    (hbuild : (buildFile path options : StateM FileSystem _).run before =
      (.ok text, after)) :
    (run args : StateM FileSystem _).run before =
      (.built options text, after) := by
  simp only [run, hparse, perform, run_bind_files, hbuild]
  rfl

theorem built_of_out {out : String} (h : options.out = some out)
    (text : String) : Outcome.built options text = .printed "" := by
  simp [Outcome.built, h]

theorem built_of_no_out (h : options.out = none) (text : String) :
    Outcome.built options text =
      .printed (if options.action = .script then text else text ++ "\n") := by
  cases haction : options.action <;> simp [Outcome.built, h, haction]

/-- A finished build delivers its result, with one exception: a tree that should
go to a file is neither printed nor written, and can be seen only if the file
happens to hold it already. -/
theorem run_delivered_iff {args : List String} {path text : String}
    {options : BuildOptions} {before after : FileSystem}
    (hparse : parse args = .ok (.build path options))
    (hbuild : (buildFile path options : StateM FileSystem _).run before =
      (.ok text, after)) :
    ∃ outcome, (run args : StateM FileSystem _).run before = (outcome, after) ∧
      outcome.code = 0 ∧ outcome.stderr = "" ∧
      (Delivered options text outcome after ↔
        ∀ out, options.action = .tree → options.out = some out →
          before.readText out = .ok text) ∧
      (options.action = .tree → options.out.isSome →
        outcome.stdout = "" ∧ after = before) := by
  have hbuilt := buildFile_built before path options
  rw [hbuild] at hbuilt
  refine ⟨_, run_of_build hparse hbuild, ?_⟩
  cases hout : options.out with
  | none =>
      rw [built_of_no_out hout]
      refine ⟨rfl, rfl, ⟨?_, fun _ => .inl rfl⟩, ?_⟩
      · intro _ out _ hgiven
        cases hgiven
      · intro _ hgiven
        cases hgiven
  | some out =>
  rw [built_of_out hout]
  cases haction : options.action with
  | script =>
      obtain ⟨_, location, file, -, -, -, hcontent, -, -, hfind⟩ :=
        hbuilt.written_of_script haction hout
      have hread : after.readText out = .ok text :=
        FileSystem.readText_of_find hfind hcontent
      refine ⟨rfl, rfl, ⟨?_, fun _ => .inr ⟨out, hout, hread⟩⟩, ?_⟩
      · intro _ out htree
        cases htree
      · intro htree
        cases htree
  | check =>
      rw [out_of_check hparse haction] at hout
      cases hout
  | tree =>
      have hsame : after = before :=
        hbuilt.unchanged_of_kept (.inl (by rw [haction]; decide))
      subst hsame
      refine ⟨rfl, rfl, ⟨?_, fun h => .inr ⟨out, hout, h out rfl rfl⟩⟩,
        fun _ _ => ⟨rfl, rfl⟩⟩
      rintro (hprinted | ⟨given, hgiven, hread⟩) wanted - hwanted
      · -- A printed tree ends its line, and nothing has been printed.
        rw [haction, if_neg (by decide)] at hprinted
        exact absurd (congrArg String.toList hprinted)
          (by simp [Outcome.printed])
      · rw [hout] at hgiven
        cases hgiven
        cases hwanted
        exact hread

theorem run_delivered_iff_script :
    ∃ text after outcome,
      (buildFile "p.shb" ⟨.script, .batch, some "p.bat", true⟩ :
        StateM FileSystem _).run oneProgram = (.ok text, after) ∧
      (run ["-o", "p.bat", "p.shb", "--target=bat"] :
        StateM FileSystem _).run oneProgram = (outcome, after) ∧
      Delivered ⟨.script, .batch, some "p.bat", true⟩ text outcome after := by
  have hparse : parse ["-o", "p.bat", "p.shb", "--target=bat"] =
      .ok (.build "p.shb" ⟨.script, .batch, some "p.bat", true⟩) := by
    decide +kernel
  have hok : ((buildFile "p.shb" ⟨.script, .batch, some "p.bat", true⟩ :
      StateM FileSystem _).run oneProgram).1.isOk = true := by decide +kernel
  generalize hbuild : (buildFile "p.shb" ⟨.script, .batch, some "p.bat", true⟩ :
    StateM FileSystem _).run oneProgram = ended at hok ⊢
  obtain ⟨result, after⟩ := ended
  cases result with
  | error error => cases hok
  | ok text =>
      obtain ⟨outcome, hrun, -, -, hdelivered, -⟩ :=
        run_delivered_iff hparse hbuild
      refine ⟨text, after, outcome, rfl, hrun, hdelivered.mpr ?_⟩
      intro out htree
      cases htree

/-- The tree of a program that should go to a file is lost. -/
theorem tree_to_file_is_lost :
    parse ["--emit-ast", "-o", "out.txt", "p.shb"] =
      .ok (.build "p.shb" ⟨.tree, .bash, some "out.txt", true⟩) ∧
    ∃ text,
      (buildFile "p.shb" ⟨.tree, .bash, some "out.txt", true⟩ :
        StateM FileSystem _).run oneProgram = (.ok text, oneProgram) ∧
      (run ["--emit-ast", "-o", "out.txt", "p.shb"] :
        StateM FileSystem _).run oneProgram = (.printed "", oneProgram) ∧
      ¬Delivered ⟨.tree, .bash, some "out.txt", true⟩ text
        (.printed "") oneProgram := by
  have hparse : parse ["--emit-ast", "-o", "out.txt", "p.shb"] =
      .ok (.build "p.shb" ⟨.tree, .bash, some "out.txt", true⟩) := by
    decide +kernel
  have hok : ((buildFile "p.shb" ⟨.tree, .bash, some "out.txt", true⟩ :
      StateM FileSystem _).run oneProgram).1.isOk = true := by decide +kernel
  have hkept : ((buildFile "p.shb" ⟨.tree, .bash, some "out.txt", true⟩ :
      StateM FileSystem _).run oneProgram).2 = oneProgram := by decide +kernel
  have hmissing : oneProgram.readText "out.txt" = .error .noSuchEntry := by
    decide +kernel
  generalize hbuild : (buildFile "p.shb" ⟨.tree, .bash, some "out.txt", true⟩ :
    StateM FileSystem _).run oneProgram = ended at hok hkept ⊢
  obtain ⟨result, after⟩ := ended
  obtain rfl : after = oneProgram := hkept
  cases result with
  | error error => cases hok
  | ok text =>
      refine ⟨hparse, text, rfl, run_of_build hparse hbuild, ?_⟩
      rintro (hprinted | ⟨out, hout, hread⟩)
      · exact absurd (congrArg String.toList hprinted)
          (by simp [Outcome.printed])
      · cases hout
        rw [hmissing] at hread
        cases hread

end CommandLine

end Shellwright
