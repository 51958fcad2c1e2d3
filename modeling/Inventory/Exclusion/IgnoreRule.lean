import Inventory.Exclusion.Piece
import Inventory.Failure
import Inventory.Text.Lines

/-!
An ignore rule is read from one line, and says of a relative path that it is to be
ignored or, after an exclamation mark, that it is not. A line is split at its slashes
into segments: `**`, which takes any number of directories, or a wildcard for one name.
A match may rest on the slash that a directory ends with, the *directory mark*; rules
whose match does without it decide before the others.
-/
namespace Inventory

inductive RulePart where
  | piece (p : Piece)
  /-- All of these or nothing, and all of them if possible. -/
  | optional (pieces : List Piece)
deriving DecidableEq

inductive RuleEnd where
  /-- A slash, which may count as the directory mark. -/
  | slash (mark : Bool)
  /-- The directory mark, or else the end of the path. -/
  | slashOrEnd
deriving DecidableEq

inductive RuleShape where
  /-- Any character but a line feed, anywhere. -/
  | anyCharacter
  /-- A slash anywhere, which may count as the directory mark. -/
  | anySlash (mark : Bool)
  /-- Parts from the start of the path on, and what comes behind them. -/
  | anchored (parts : List RulePart) (ending : RuleEnd)
deriving DecidableEq

structure IgnoreRule where
  /-- The rule says that a path is not to be ignored. -/
  negated : Bool
  shape : RuleShape
deriving DecidableEq

/-! ## Matching -/

def RulePart.rests : RulePart → Text → List Text
  | piece p, t => p.rests t
  | optional pieces, t => Piece.restsAll pieces t ++ [t]

/-- What parts can leave of a text, the most wanted first. -/
def RulePart.restsAll (parts : List RulePart) (t : Text) : List Text :=
  parts.foldl (fun texts p => (texts.flatMap p.rests).eraseDups) [t]

/-- Whether the rest of a path ends a match, and with the directory mark. A line
    feed at the very end counts as the end. -/
def RuleEnd.mark? : RuleEnd → Text → Option Bool
  | slash mark, t => if t.head? = some '/' then some mark else none
  | slashOrEnd, t =>
    if t.head? = some '/' then some true
    else if t = [] ∨ t = ['\n'] then some false
    else none

def RuleShape.mark? : RuleShape → Text → Option Bool
  | anyCharacter, t => if t.any (· ≠ '\n') then some false else none
  | anySlash mark, t => if t.contains '/' then some mark else none
  | anchored parts ending, t => (RulePart.restsAll parts t).findSome? ending.mark?

/-! ## Reading -/

namespace IgnoreRule

inductive Fault where
  /-- A bracket is not closed: the line is no rule. -/
  | unclosed
  | danglingEscape
deriving DecidableEq

def setOf (b : Bracket) : CharSet := ⟨b.negated, Member.list b.body⟩

def piecesOf : Text → Except Fault (List Piece)
  | [] => .ok []
  | ['\\'] => .error .danglingEscape
  | '\\' :: c :: t => (piecesOf t).map (.one (.only c) :: ·)
  | '*' :: t => (piecesOf t).map (.many (.allBut '/') :: ·)
  | '?' :: t => (piecesOf t).map (.one (.allBut '/') :: ·)
  | '[' :: t =>
    match _read : Bracket.ofText? (fun c => c = '!' || c = '^') t with
    | none => .error .unclosed
    | some b => (piecesOf b.rest).map (.one (setOf b) :: ·)
  | c :: t => (piecesOf t).map (.one (.only c) :: ·)
termination_by t => t.length
decreasing_by
  all_goals first
    | exact Nat.lt_succ_self _
    | exact Nat.lt_succ_of_lt (Nat.lt_succ_self _)
    | exact Nat.lt_succ_of_lt (Bracket.length_rest_lt _read)

def anyDepth : Text := ['*', '*']

def withinLine : CharSet := .allBut '\n'

def slashPart : RulePart := .piece (.one (.only '/'))

/-- Any directories before the first name. -/
def leadingDirectories : RulePart := .optional [.one withinLine, .many withinLine, .one (.only '/')]

/-- Any directories between two names. -/
def innerDirectories : RulePart := .optional [.one (.only '/'), .one withinLine, .many withinLine]

/-- The parts of one name; a star alone takes at least one character. -/
def nameParts (segment : Text) : Except Fault (List RulePart) :=
  if segment = ['*'] then .ok [.piece (.one (.allBut '/')), .piece (.many (.allBut '/'))]
  else (piecesOf segment).map (·.map .piece)

/-- The parts of segments, and what comes behind them. A slash goes before a
    name unless it is the first or follows only leading directories. -/
def anchoredParts (mark : Bool) (first slash : Bool) : List Text → Except Fault (List RulePart × RuleEnd)
  | [] => .ok ([], .slashOrEnd)
  | segment :: rest =>
    if segment = anyDepth then
      if rest = [] then .ok ([], .slash mark)
      else
        (anchoredParts mark false (!first) rest).map fun later =>
          ((if first then leadingDirectories else innerDirectories) :: later.1, later.2)
    else do
      let name ← nameParts segment
      let later ← anchoredParts mark false true rest
      .ok ((if slash then [slashPart] else []) ++ name ++ later.1, later.2)

/-- Of several `**` in a row one is kept. -/
def collapsed : List Text → List Text
  | a :: b :: rest => if a = anyDepth ∧ b = anyDepth then collapsed (b :: rest) else a :: collapsed (b :: rest)
  | rest => rest

/-- The segments of a line, with `**` put before a pattern that has no slash
    inside. -/
def rooted : List Text → List Text
  | [] :: rest => rest
  | segments =>
    if (segments.length = 1 ∨ (segments.length = 2 ∧ segments.getLast? = some [])) ∧
        segments.head? ≠ some anyDepth then anyDepth :: segments
    else segments

/-- A slash at the end stands for all that is below. -/
def withBelow (segments : List Text) : List Text :=
  if segments.getLast? = some [] then segments.dropLast ++ [anyDepth] else segments

/-- The shape that segments have; `mark` says that the line ends with a slash. -/
def shapeOf (mark : Bool) (segments : List Text) : Except Fault RuleShape :=
  if segments = [anyDepth] then .ok (if mark then .anySlash true else .anyCharacter)
  else if segments = [anyDepth, ['*']] then .ok .anyCharacter
  else if segments = [anyDepth, ['*'], anyDepth] then .ok (.anySlash mark)
  else (anchoredParts mark true false segments).map fun (parts, ending) => .anchored parts ending

def members : RuleShape → List Member
  | .anchored parts _ => parts.flatMap fun
    | .piece (.one s) => s.members
    | .piece (.many s) => s.members
    | .optional _ => []
  | _ => []

/-- The text after the first exclamation mark, if the line starts with one. -/
def pattern (line : Text) : Bool × Text :=
  match line with
  | '!' :: t => (true, t)
  | _ => (false, line)

/-- The line without the white space at its end, unless its last blank is
    escaped. -/
def trimmed (line : Text) : Text :=
  if [' ', '\\'] <+: line.reverse then line else Text.trimmedEnd line

/-- The rule of a line. Comments, blank lines, a slash alone and a pattern with
    an unclosed bracket are no rules. -/
def ofLine (line : Text) : Except Failure (Option IgnoreRule) :=
  let line := trimmed line
  if line = [] ∨ line.head? = some '#' ∨ line = ['/'] then .ok none
  else
    let (negated, pattern) := pattern line
    let segments := Text.cut '/' pattern
    let mark := segments.getLast? = some []
    match rooted segments with
    | [] => .error .malformedRule
    | segments =>
      match shapeOf mark (collapsed (withBelow segments)) with
      | .error .unclosed => .ok none
      | .error .danglingEscape => .error .malformedRule
      | .ok shape =>
        if (members shape).any Member.isDescending then .error .descendingRange
        else .ok (some ⟨negated, shape⟩)

end IgnoreRule

abbrev IgnoreRules := List IgnoreRule

namespace IgnoreRules

/-- The rules of lines. Empty lines are not read, and the first line that cannot
    be read fails. -/
def ofLines (lines : List Text) : Except Failure IgnoreRules := do
  let read ← (lines.filter (· ≠ [])).mapM IgnoreRule.ofLine
  .ok (read.filterMap id)

/-- A path as rules see it: with a slash behind a directory, and without one
    slash, or else one `./`, at the start. -/
def subject (p : Path) (directory : Bool) : Text :=
  match p.text ++ if directory then ['/'] else [] with
  | '/' :: t => t
  | '.' :: '/' :: t => t
  | t => t

/-- The rules that match, with whether the match needs the directory mark. -/
def hits (rules : IgnoreRules) (t : Text) : List (Bool × IgnoreRule) :=
  rules.filterMap fun r => (r.shape.mark? t).map (·, r)

/-- The rule that decides: of those that match the last one whose match does without the
    directory mark, or if all need it the last of them. -/
def deciding? (rules : IgnoreRules) (t : Text) : Option IgnoreRule :=
  let hits := rules.hits t
  (((hits.filter fun h => !h.1).getLast?).or hits.getLast?).map (·.2)

/-- The rules say that a path is to be ignored. -/
def ignores (rules : IgnoreRules) (p : Path) (directory : Bool) : Bool :=
  (rules.deciding? (subject p directory)).any fun r => !r.negated

end IgnoreRules
end Inventory
