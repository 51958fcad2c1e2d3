import Inventory.CommandLine.Word
import Inventory.Run

namespace Inventory

structure CommandDraft where
  positionals : List (List Text)
  patterns : List (Option Text)
  ignoreFile : Option Text
  sorted : Bool
  separator : Text
  verbosity : Nat
  unknown : List Text
deriving DecidableEq

structure Invocation where
  request : Request
  /-- How often more to be said was asked for. -/
  verbosity : Nat
deriving DecidableEq

inductive NoInvocation where
  | help
  | misused (e : UsageError)
deriving DecidableEq

namespace CommandDraft

def blank : CommandDraft := ⟨[], [], none, false, [], 0, []⟩

/-- The word in a group, if there is one without the divider. -/
def wordOf (group : List Text) : Option Text := (group.erase Word.dividerText).head?

/-- How a missing word stands in texts. -/
def absentText : Text := ['[', ']']

/-- The words of one positional, with the dividers around it. -/
def oneGroup? (words : List Word) : Option (List Text × List Word) :=
  let dividers := words.takeWhile (· = .divider)
  match words.dropWhile (· = .divider) with
  | .argument t :: rest =>
    let after := rest.takeWhile (· = .divider)
    some (dividers.map (fun _ => Word.dividerText) ++ t :: after.map (fun _ => Word.dividerText),
      rest.dropWhile (· = .divider))
  | _ => none

def textOf : Word → Text
  | .argument t | .unknownOption t => t
  | .divider | .option .. => Word.dividerText

/-- The groups that arguments make up for so many open positionals, and the words
    that belong to none. -/
def groupsOf : Nat → List Word → List (List Text) × List Word
  | 0, words => ([], words)
  | 1, words => if words.any (· ≠ .divider) then ([words.map textOf], []) else ([], words)
  | more + 2, words =>
    match oneGroup? words with
    | none => ([], words)
    | some (group, rest) =>
      let later := groupsOf (more + 1) rest
      (group :: later.1, later.2)

/-- Gives arguments to the open positionals. The mode is checked when it is given. -/
def takeArguments (d : CommandDraft) (words : List Word) : Except NoInvocation CommandDraft :=
  let given := groupsOf (Positional.all.length - d.positionals.length) words
  let taken := { d with
    positionals := d.positionals ++ given.1
    unknown := d.unknown ++ given.2.map textOf }
  if d.positionals ≠ [] then .ok taken
  else match given.1.head?.bind wordOf with
    | none => .ok taken
    | some mode =>
      if mode = "short".toList ∨ mode = "long".toList then .ok taken
      else .error (.misused (.unknownMode mode))

/-- Carries out an option; `word` is its word if it takes one. -/
def apply (d : CommandDraft) (o : CommandOption) (word : Option Text) : Except NoInvocation CommandDraft :=
  match o with
  | .help => .error .help
  | .exclude => .ok { d with patterns := d.patterns ++ [word] }
  | .ignoreFile => .ok { d with ignoreFile := word }
  | .sort => .ok { d with sorted := true }
  | .separator => .ok { d with separator := word.getD absentText }
  | .verbose => .ok { d with verbosity := d.verbosity + 1 }

def applyAll (d : CommandDraft) (options : List CommandOption) : Except NoInvocation CommandDraft :=
  options.foldlM (fun d o => d.apply o none) d

end CommandDraft

/-- The state of reading a command line. -/
structure CommandReader where
  draft : CommandDraft
  /-- The arguments since the last option. -/
  arguments : List Word
  /-- Options that are carried out as soon as the last of them has its word. -/
  waiting : Option (List CommandOption × CommandOption)

namespace CommandReader

def start : CommandReader := ⟨.blank, [], none⟩

/-- Gives the arguments since the last option to the positionals. -/
def settle (r : CommandReader) : Except NoInvocation CommandDraft := r.draft.takeArguments r.arguments

/-- Reads an option with what is attached to it. -/
def readOption (d : CommandDraft) (o : CommandOption) (short : Bool) (attached : Option Text) :
    Except NoInvocation CommandReader :=
  match Word.asked o short attached with
  | .error e => .error (.misused e)
  | .ok (before, last, none) =>
    if last.takesWord then .ok ⟨d, [], some (before, last)⟩
    else do
      let d ← d.applyAll (before ++ [last])
      .ok ⟨d, [], none⟩
  | .ok (before, last, some t) => do
    let d ← d.applyAll before
    let d ← d.apply last (CommandDraft.wordOf [t])
    .ok ⟨d, [], none⟩

def read (r : CommandReader) (w : Word) : Except NoInvocation CommandReader :=
  match r.waiting, w with
  | some (before, last), .argument t => do
    let d ← r.draft.applyAll before
    let d ← d.apply last (some t)
    .ok ⟨d, [], none⟩
  | some (_, last), _ => .error (.misused (.noWord last))
  | none, .option o short attached => do
    let d ← r.settle
    readOption d o short attached
  | none, .unknownOption t => do
    let d ← r.settle
    .ok ⟨{ d with unknown := d.unknown ++ [t] }, [], none⟩
  | none, w => .ok { r with arguments := r.arguments ++ [w] }

def finish (r : CommandReader) : Except NoInvocation Invocation :=
  match r.waiting with
  | some (_, last) => .error (.misused (.noWord last))
  | none => do
    let d ← r.settle
    match d.positionals, d.unknown with
    | [mode, output, localRoot, searchRoots], [] =>
      .ok ⟨⟨(CommandDraft.wordOf mode).getD CommandDraft.absentText, CommandDraft.wordOf output,
        CommandDraft.wordOf localRoot, searchRoots.erase Word.dividerText, d.patterns, d.ignoreFile, d.sorted,
        d.separator⟩, d.verbosity⟩
    | [_, _, _, _], unknown => .error (.misused (.unrecognized unknown))
    | given, _ => .error (.misused (.missing (Positional.all.drop given.length)))

end CommandReader

namespace Invocation

def ofTexts (arguments : List Text) : Except NoInvocation Invocation :=
  match Word.ofTexts arguments with
  | .error e => .error (.misused e)
  | .ok words => do
    let r ← words.foldlM CommandReader.read .start
    r.finish

def threshold (i : Invocation) : Nat :=
  match i.verbosity with
  | 0 => Level.warning.severity
  | 1 => Level.info.severity
  | _ => Level.debug.severity

end Invocation

inductive Execution where
  | helped
  | misused (e : UsageError)
  | ran (i : Invocation) (r : Run)

namespace Execution

def ofTexts (fs : FileSystem) (now : Int) (arguments : List Text) : Execution :=
  match Invocation.ofTexts arguments with
  | .error .help => helped
  | .error (.misused e) => misused e
  | .ok i => ran i (Run.perform fs now i.request)

def programName : Text := "fsinv".toList

def lines : Execution → List Text
  | helped => []
  | misused e => [programName ++ ": error: ".toList ++ e.message]
  | ran i r =>
    ((r.notices.filter fun n => i.threshold ≤ n.level.severity).map Notice.line) ++
      match r.outcome with
      | .error (.reported e) => [programName ++ ": ".toList ++ e.message]
      | _ => []

/-- The exit code; none if the run ends in a failure that is not reported. -/
def exitCode? : Execution → Option Nat
  | helped => some 0
  | misused _ => some 2
  | ran _ r =>
    match r.outcome with
    | .ok _ => some 0
    | .error (.reported e) => some e.exitCode
    | .error _ => none

end Execution
end Inventory
