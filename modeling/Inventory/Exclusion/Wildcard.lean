import Inventory.Exclusion.Piece

namespace Inventory

structure Wildcard where
  pieces : List Piece
deriving DecidableEq

namespace Wildcard

/-- The set between brackets. If an exclamation mark comes first only because
    spans before it were dropped, it negates the set all the same, and if a span
    began with it, the hyphen and the end of the span are left as members. -/
def setOf (b : Bracket) : CharSet :=
  let kept := (Member.list b.body).filter fun m => !m.isDescending
  if b.negated then ⟨true, kept⟩
  else match kept with
    | .single '!' :: rest => ⟨true, rest⟩
    | .span '!' last :: rest => ⟨true, .single '-' :: .single last :: rest⟩
    | _ => ⟨false, kept⟩

/-- The pieces of a wildcard. A bracket that is not closed stands for itself. -/
def piecesOf : Text → List Piece
  | [] => []
  | '*' :: t => .many .all :: piecesOf t
  | '?' :: t => .one .all :: piecesOf t
  | '[' :: t =>
    match _read : Bracket.ofText? (· = '!') t with
    | none => .one (.only '[') :: piecesOf t
    | some b => .one (setOf b) :: piecesOf b.rest
  | c :: t => .one (.only c) :: piecesOf t
termination_by t => t.length
decreasing_by
  all_goals first
    | exact Nat.lt_succ_self _
    | exact Nat.lt_succ_of_lt (Bracket.length_rest_lt _read)

def ofText (t : Text) : Wildcard := ⟨piecesOf t⟩

/-- The wildcard takes the whole name. -/
def covers (w : Wildcard) (name : Text) : Bool := (Piece.restsAll w.pieces name).contains []

end Wildcard
end Inventory
