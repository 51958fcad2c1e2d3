import Inventory.Text.Digit
import Inventory.Text.Quoted

namespace Inventory

inductive CommandOption where
  | help
  | exclude
  | ignoreFile
  | sort
  | separator
  | verbose
deriving DecidableEq, Repr

namespace CommandOption

/-- All spellings, in the order in which they are listed. -/
def spellings : List (Text × CommandOption) :=
  [("-h".toList, help), ("--help".toList, help), ("-I".toList, exclude), ("--exclude".toList, exclude),
    ("--ignore-file".toList, ignoreFile), ("--sort".toList, sort), ("--timestamp-separator".toList, separator),
    ("-v".toList, verbose), ("--verbose".toList, verbose)]

def takesWord : CommandOption → Bool
  | exclude | ignoreFile | separator => true
  | help | sort | verbose => false

def spelled? (t : Text) : Option CommandOption := spellings.lookup t

/-- The spellings of an option with a slash between them, as messages have it. -/
def label (o : CommandOption) : Text :=
  Text.joined '/' ((spellings.filter fun s => s.2 = o).map (·.1))

end CommandOption

/-- What a run is to be told in a fixed order. -/
inductive Positional where
  | mode
  | output
  | localRoot
  | searchRoots
deriving DecidableEq, Repr

namespace Positional

def all : List Positional := [mode, output, localRoot, searchRoots]

def label : Positional → Text
  | mode => "mode".toList
  | output => "output".toList
  | localRoot => "local_root".toList
  | searchRoots => "search_root".toList

end Positional

inductive UsageError where
  /-- A word is the beginning of several long spellings. -/
  | ambiguous (word : Text) (spellings : List Text)
  | attached (o : CommandOption) (t : Text)
  | noWord (o : CommandOption)
  | unknownMode (t : Text)
  | missing (positionals : List Positional)
  | unrecognized (words : List Text)
deriving DecidableEq

namespace UsageError

private def separatedBy (between : Text) : List Text → Text
  | [] => []
  | [t] => t
  | t :: rest => t ++ between ++ separatedBy between rest

private def about (argument : Text) (what : Text) : Text :=
  "argument ".toList ++ argument ++ ": ".toList ++ what

def message : UsageError → Text
  | ambiguous word spellings =>
    "ambiguous option: ".toList ++ word ++ " could match ".toList ++ separatedBy ", ".toList spellings
  | attached o t => about o.label ("ignored explicit argument ".toList ++ Text.quoted t)
  | noWord o => about o.label "expected one argument".toList
  | unknownMode t =>
    about Positional.mode.label
      ("invalid choice: ".toList ++ Text.quoted t ++ " (choose from 'short', 'long')".toList)
  | missing positionals =>
    "the following arguments are required: ".toList ++
      separatedBy ", ".toList (positionals.map Positional.label)
  | unrecognized words => "unrecognized arguments: ".toList ++ separatedBy [' '] words

end UsageError

inductive Word where
  | argument (t : Text)
  /-- The `--` that makes all words after it arguments. -/
  | divider
  /-- An option, which may be spelled short, and the text that is attached to it. -/
  | option (o : CommandOption) (short : Bool) (attached : Option Text)
  | unknownOption (t : Text)
deriving DecidableEq

namespace Word

def dividerText : Text := ['-', '-']

/-- The words that ask for options with a text attached to a spelling that may be
    cut short, each with its full spelling. -/
def abbreviated (t : Text) : List (Text × Word) :=
  if t[1]? = some '-' then
    let spelling := t.takeWhile (· ≠ '=')
    let attached := if t.contains '=' then some ((t.dropWhile (· ≠ '=')).drop 1) else none
    (CommandOption.spellings.filter fun s => spelling.isPrefixOf s.1).map fun s =>
      (s.1, option s.2 false attached)
  else
    (CommandOption.spellings.filter fun s => s.1 = t.take 2).map fun s =>
      (s.1, option s.2 true (some (t.drop 2)))

/-- A spelling is short if it has one hyphen. -/
def isShort (spelling : Text) : Bool := spelling[1]? ≠ some '-'

/-- The option with its full spelling before an equals sign. -/
def assigned? (t : Text) : Option Word :=
  if t.contains '=' then
    let spelling := t.takeWhile (· ≠ '=')
    (CommandOption.spelled? spelling).map fun o =>
      option o (isShort spelling) (some ((t.dropWhile (· ≠ '=')).drop 1))
  else none

def ofText (t : Text) : Except UsageError Word :=
  if t.head? ≠ some '-' then .ok (.argument t)
  else match CommandOption.spelled? t with
    | some o => .ok (.option o (isShort t) none)
    | none =>
      if t.length = 1 then .ok (.argument t)
      else match assigned? t with
        | some w => .ok w
        | none =>
          match abbreviated t with
          | [] => .ok (if Text.isNegativeNumber t || t.contains ' ' then .argument t else .unknownOption t)
          | [(_, w)] => .ok w
          | several => .error (.ambiguous t (several.map (·.1)))

def ofTexts : List Text → Except UsageError (List Word)
  | [] => .ok []
  | t :: rest =>
    if t = dividerText then .ok (.divider :: rest.map argument)
    else do
      let w ← ofText t
      let later ← ofTexts rest
      .ok (w :: later)

/-- The options that a text attached to an option asks for, the last one apart
    with what is then attached to it: to a short option that takes no word, the
    text adds further short options. -/
def cluster (short : Bool) (o : CommandOption) :
    Text → Except UsageError (List CommandOption × CommandOption × Option Text)
  | [] => if o.takesWord then .ok ([], o, some []) else .error (.attached o [])
  | c :: rest =>
    if o.takesWord then .ok ([], o, some (c :: rest))
    else match short, CommandOption.spelled? ['-', c] with
      | true, some next =>
        if rest = [] then .ok ([o], next, none)
        else (cluster true next rest).map fun more => (o :: more.1, more.2)
      | _, _ => .error (.attached o (c :: rest))

/-- The options that a word asks for, as for `cluster`. -/
def asked (o : CommandOption) (short : Bool) :
    Option Text → Except UsageError (List CommandOption × CommandOption × Option Text)
  | none => .ok ([], o, none)
  | some t => cluster short o t

end Word
end Inventory
