import Inventory.Proofs.Resolution

/-!
A text is read without the checks that the system makes on a walk: `..`, `.` and a slash
at the end are taken from any node, a link may say nothing, and links are replaced without
a limit. `FileSystem.Reads` says where a reading arrives, how many links it replaces and
what the system would have had against it. The system follows a reading to its end as long
as that is nothing and its links last (`FileSystem.locate_of_reads`).
-/
namespace Inventory

namespace Spelling

/-- The steps of pieces between slashes. -/
def stepsOf (pieces : List Text) : List Step := pieces.filterMap stepOfText?

/-- The steps of a text. A slash at its end insists on a directory. -/
def stepsOfText (t : Text) : List Step :=
  stepsOf (Text.cut '/' t) ++ if t.getLast? = some '/' then [.insist] else []

theorem ofText?_of_ne_nil {t : Text} (said : t ≠ []) : ofText? t = some ⟨t.head? = some '/', stepsOfText t⟩ := by
  simp only [ofText?, if_neg said, stepsOfText, stepsOf]
  split <;> simp

end Spelling

/-- What the system has against a step that it checks. -/
def refusals : Except Errno Unit → List Errno
  | .ok () => []
  | .error why => [why]

namespace FileSystem

variable {fs : FileSystem}

/-- What the system has against a link for its text. -/
def refusalsOfTarget (target : Text) : List Errno := if target = [] then [.noEntry] else []

/-- Where a link in a directory says to start. -/
def startOfTarget (here : Location) (target : Text) : Location := if target.head? = some '/' then [] else here

theorem Firm.startOfTarget {here : Location} (firm : fs.Firm here) (target : Text) :
    fs.Firm (startOfTarget here target) := by
  unfold FileSystem.startOfTarget
  split
  · exact firm_root
  · exact firm

/-- Reading steps from the first location, so many links are replaced, the system would
    have these errors, and the reading arrives at the second location. -/
inductive Reads (fs : FileSystem) : Location → List Step → Nat → List Errno → Location → Prop
  | arrived (here : Location) : Reads fs here [] 0 [] here
  | insist {here there : Location} {rest : List Step} {links : Nat} {later : List Errno} :
      Reads fs here rest links later there →
      Reads fs here (.insist :: rest) links (refusals (fs.insistDirectory here) ++ later) there
  | stay {here there : Location} {rest : List Step} {links : Nat} {later : List Errno} :
      Reads fs here rest links later there →
      Reads fs here (.stay :: rest) links (refusals (fs.searchable here) ++ later) there
  | up {here there : Location} {rest : List Step} {links : Nat} {later : List Errno} :
      Reads fs here.dropLast rest links later there →
      Reads fs here (.up :: rest) links (refusals (fs.searchable here) ++ later) there
  | child {here there : Location} {n : Name} {rest : List Step} {links : Nat} {later : List Errno} {node : Node} :
      fs.searchable here = .ok () → fs.node? (here ++ [n]) = some node → node.linkTarget? = none →
      Reads fs (here ++ [n]) rest links later there → Reads fs here (.child n :: rest) links later there
  | link {here middle there : Location} {n : Name} {rest : List Step} {inner links : Nat} {through later : List Errno}
      {node : Node} {target : Text} :
      fs.searchable here = .ok () → fs.node? (here ++ [n]) = some node → node.linkTarget? = some target →
      Reads fs (startOfTarget here target) (Spelling.stepsOfText target) inner through middle →
      Reads fs middle rest links later there →
      Reads fs here (.child n :: rest) (inner + links + 1) (refusalsOfTarget target ++ through ++ later) there

/-- A reading has one end and one number of links. -/
theorem Reads.unique {here there there' : Location} {steps : List Step} {links links' : Nat}
    {against against' : List Errno} (first : fs.Reads here steps links against there)
    (second : fs.Reads here steps links' against' there') : links = links' ∧ there = there' := by
  induction first generalizing links' against' there' with
  | arrived here => cases second; exact ⟨rfl, rfl⟩
  | insist _ ih => cases second with | insist second => exact ih second
  | stay _ ih => cases second with | stay second => exact ih second
  | up _ ih => cases second with | up second => exact ih second
  | child _ found plain _ ih =>
    cases second with
    | child _ _ _ second => exact ih second
    | link _ found' target =>
      rw [found] at found'
      cases found'
      rw [plain] at target
      cases target
  | link _ found target _ _ ihInner ih =>
    cases second with
    | child _ found' plain =>
      rw [found] at found'
      cases found'
      rw [target] at plain
      cases plain
    | link _ found' target' inner second =>
      rw [found] at found'
      cases found'
      rw [target] at target'
      cases target'
      obtain ⟨rfl, rfl⟩ := ihInner inner
      obtain ⟨rfl, rfl⟩ := ih second
      exact ⟨rfl, rfl⟩

/-- A reading that starts where one can walk to, at no link, ends so. -/
theorem Reads.firm {here there : Location} {steps : List Step} {links : Nat} {against : List Errno}
    (reading : fs.Reads here steps links against there) (start : fs.Firm here) : fs.Firm there := by
  induction reading with
  | arrived here => exact start
  | insist _ ih => exact ih start
  | stay _ ih => exact ih start
  | up _ ih => exact ih start.dropLast
  | child searched found plain _ ih => exact ih ⟨start.1.child searched _, _, found, plain⟩
  | link _ _ _ _ _ ihInner ih => exact ih (ihInner (start.startOfTarget _))

/-- A slash at the end leads nowhere else. -/
theorem reads_insist_iff {here there : Location} {steps : List Step} {links : Nat} :
    (∃ against, fs.Reads here (steps ++ [.insist]) links against there) ↔
      ∃ against, fs.Reads here steps links against there := by
  constructor
  · rintro ⟨against, reading⟩
    induction steps generalizing here links against with
    | nil =>
      cases reading with
      | insist reading => exact ⟨_, reading⟩
    | cons step steps ih =>
      cases reading with
      | insist reading =>
        obtain ⟨_, reading⟩ := ih _ reading
        exact ⟨_, .insist reading⟩
      | stay reading =>
        obtain ⟨_, reading⟩ := ih _ reading
        exact ⟨_, .stay reading⟩
      | up reading =>
        obtain ⟨_, reading⟩ := ih _ reading
        exact ⟨_, .up reading⟩
      | child searched found plain reading =>
        obtain ⟨_, reading⟩ := ih _ reading
        exact ⟨_, .child searched found plain reading⟩
      | link searched found target inner reading =>
        obtain ⟨_, reading⟩ := ih _ reading
        exact ⟨_, .link searched found target inner reading⟩
  · rintro ⟨against, reading⟩
    induction reading with
    | arrived here => exact ⟨_, .insist (.arrived here)⟩
    | insist _ ih =>
      obtain ⟨_, reading⟩ := ih
      exact ⟨_, .insist reading⟩
    | stay _ ih =>
      obtain ⟨_, reading⟩ := ih
      exact ⟨_, .stay reading⟩
    | up _ ih =>
      obtain ⟨_, reading⟩ := ih
      exact ⟨_, .up reading⟩
    | child searched found plain _ ih =>
      obtain ⟨_, reading⟩ := ih
      exact ⟨_, .child searched found plain reading⟩
    | link searched found target inner _ _ ih =>
      obtain ⟨_, reading⟩ := ih
      exact ⟨_, .link searched found target inner reading⟩

/-- So what a link says is read as its pieces between slashes are. -/
theorem reads_stepsOfText_iff {here there : Location} {t : Text} {links : Nat} :
    (∃ against, fs.Reads here (Spelling.stepsOfText t) links against there) ↔
      ∃ against, fs.Reads here (Spelling.stepsOf (Text.cut '/' t)) links against there := by
  unfold Spelling.stepsOfText
  split
  · exact reads_insist_iff
  · rw [List.append_nil]

/-- The system has nothing against a walk. -/
theorem Leads.reads {here there : Location} {steps : List Step} {links : Nat}
    (walk : fs.Leads here steps links there) : fs.Reads here steps links [] there := by
  induction walk with
  | arrived here => exact .arrived here
  | insist directory _ ih => simpa [directory, refusals] using Reads.insist ih
  | stay searched _ ih => simpa [searched, refusals] using Reads.stay ih
  | up searched _ ih => simpa [searched, refusals] using Reads.up ih
  | child searched found plain _ ih => exact .child searched found plain ih
  | @link here middle there n rest inner links node target spelling searched found content reads _ _ ihInner ih =>
    have said : target ≠ [] := by
      rintro rfl
      cases reads
    rw [Spelling.ofText?_of_ne_nil said] at reads
    cases reads
    simp only [decide_eq_true_eq] at ihInner
    simpa [refusalsOfTarget, said] using Reads.link searched found content ihInner ih

/-- What becomes of a walk along a reading with so many links at hand: it goes on as the
    reading does if the system has nothing against that and the links last, and else it fails
    for what the system has against it or for the links. -/
def Follows {α : Type} (atHand links : Nat) (against : List Errno) (walked onward : Except Errno α) : Prop :=
  (against = [] ∧ links ≤ atHand ∧ walked = onward) ∨
    (against ≠ [] ∨ atHand < links) ∧ ∃ why, (why ∈ against ∨ why = .linkLoop) ∧ walked = .error why

/-- A step that is checked first is followed too. -/
theorem Follows.checked {α : Type} {atHand links : Nat} {later : List Errno} {walked onward : Except Errno α}
    (follows : Follows atHand links later walked onward) (check : Except Errno Unit) :
    Follows atHand links (refusals check ++ later) (check.bind fun _ => walked) onward := by
  cases check with
  | error why => exact .inr ⟨.inl (by simp [refusals]), why, .inl (by simp [refusals]), rfl⟩
  | ok _ => exact follows

/-- The calls follow a reading, and have the links that are left for the rest. -/
theorem resolve_of_reads {here there : Location} {steps : List Step} {links : Nat} {against : List Errno}
    (reading : fs.Reads here steps links against there) (atHand : Nat) (rest : List Step) :
    Follows atHand links against (fs.resolve true atHand here (steps ++ rest))
      (fs.resolve true (atHand - links) there rest) := by
  induction reading generalizing atHand rest with
  | arrived here => exact .inl ⟨rfl, Nat.zero_le _, rfl⟩
  | insist _ ih =>
    rw [List.cons_append, resolve_insist]
    exact (ih atHand rest).checked _
  | stay _ ih =>
    rw [List.cons_append, resolve_stay]
    exact (ih atHand rest).checked _
  | up _ ih =>
    rw [List.cons_append, resolve_up]
    exact (ih atHand rest).checked _
  | child searched found plain _ ih =>
    rw [List.cons_append, resolve_child found plain, searched]
    exact ih atHand rest
  | @link here middle there n steps inner links through later node target searched found content _ _ ihInner ih =>
    rw [List.cons_append, resolve_link found content (fun _ => rfl), searched]
    simp only [Except.bind]
    -- The system counts links at the first step of each, and refuses an empty text only then.
    cases atHand with
    | zero => exact .inr ⟨.inr (by omega), .linkLoop, .inr rfl, rfl⟩
    | succ atHand =>
      by_cases said : target = []
      · subst said
        exact .inr ⟨.inl (by simp [refusalsOfTarget]), .noEntry, .inl (by simp [refusalsOfTarget]), rfl⟩
      · rw [Spelling.ofText?_of_ne_nil said]
        simp only [decide_eq_true_eq, refusalsOfTarget, if_neg said, List.nil_append]
        show Follows _ _ _ (fs.resolve true atHand (startOfTarget here target) _) _
        rcases ihInner atHand (steps ++ rest) with ⟨rfl, few, inside⟩ | ⟨refused, why, cause, fails⟩
        · rw [inside]
          rcases ih (atHand - inner) rest with ⟨rfl, few', onward⟩ | ⟨refused, why, cause, fails⟩
          · refine .inl ⟨rfl, by omega, ?_⟩
            rw [onward, show atHand + 1 - (inner + links + 1) = atHand - inner - links by omega]
          · refine .inr ⟨?_, why, cause, fails⟩
            exact refused.imp_right fun many => by omega
        · refine .inr ⟨?_, why, ?_, fails⟩
          · rcases refused with refused | many
            · exact .inl (by simp [refused])
            · exact .inr (by omega)
          · exact cause.imp_left fun among => List.mem_append_left _ among

/-- So an absolute path is followed to where it reads. -/
theorem locate_of_reads {p : Path} (absolute : p.isAbsolute = true) {links : Nat} {against : List Errno}
    {l : Location} (reading : fs.Reads [] p.steps links against l) :
    Follows linkLimit links against (fs.locate true p) (.ok l) := by
  have located := resolve_of_reads reading linkLimit []
  simp only [List.append_nil, resolve_nil] at located
  rcases located with ⟨none, few, ends⟩ | ⟨refused, why, cause, fails⟩
  · exact .inl ⟨none, few, (locate_eq_ok_iff absolute).2 ends⟩
  · refine .inr ⟨refused, why, cause, ?_⟩
    simp [locate, find_absolute absolute, fails, bind, Except.bind]

end FileSystem
end Inventory
