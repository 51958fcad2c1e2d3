import Inventory.Exclusion
import Inventory.Exclusion.RuleFile
import Mathlib.Data.List.Basic

namespace Inventory

namespace Text

theorem isBlank_of_isLineBreak {c : Char} (breaks : isLineBreak c = true) : isBlank c = true := by
  simp only [isLineBreak, Bool.or_eq_true, decide_eq_true_eq] at breaks
  rcases breaks with ((((((((rfl | rfl) | rfl) | rfl) | rfl) | rfl) | rfl) | rfl) | rfl) | rfl <;> decide

theorem unifiedBreaks_of_notMem {t : Text} (absent : '\r' ∉ t) : unifiedBreaks t = t := by
  induction t with
  | nil => rfl
  | cons c t ih =>
    simp only [List.mem_cons, not_or] at absent
    rw [unifiedBreaks]
    · simp [ih absent.2, Ne.symm absent.1]
    · rintro u rfl
      exact absurd rfl absent.1

/-- A text has no break, or it has a first one with a text behind it. -/
theorem break_induction {motive : Text → Prop}
    (unbroken : ∀ s, (∀ c ∈ s, isLineBreak c = false) → motive s)
    (broken : ∀ s c t, (∀ d ∈ s, isLineBreak d = false) → isLineBreak c = true → motive t → motive (s ++ c :: t))
    (t : Text) : motive t := by
  suffices behind : ∀ s : Text, (∀ c ∈ s, isLineBreak c = false) → motive (s ++ t) from behind [] (by simp)
  induction t with
  | nil => exact fun s before => (List.append_nil s).symm ▸ unbroken s before
  | cons c t ih =>
    intro s before
    cases breaks : isLineBreak c with
    | true => exact broken s c t before breaks (ih [] (by simp))
    | false =>
      have further := ih (s ++ [c]) (List.forall_mem_append.2 ⟨before, List.forall_mem_singleton.2 breaks⟩)
      rwa [List.append_assoc, List.singleton_append] at further

variable {s t : Text} {c : Char}

theorem lines_of_unbroken (unbroken : ∀ c ∈ t, isLineBreak c = false) : lines t = if t = [] then [] else [t] := by
  induction t with
  | nil => rfl
  | cons c t ih =>
    obtain ⟨here, later⟩ := List.forall_mem_cons.1 unbroken
    rw [lines, ih later]
    cases t <;> simp [here]

theorem lines_append (unbroken : ∀ c ∈ s, isLineBreak c = false) (breaks : isLineBreak c = true) (t : Text) :
    lines (s ++ c :: t) = s :: lines t := by
  induction s with
  | nil => simp [lines, breaks]
  | cons d s ih =>
    obtain ⟨here, later⟩ := List.forall_mem_cons.1 unbroken
    rw [List.cons_append, lines, ih later]
    simp [here]

theorem cut_append_of_notMem {sep : Char} (absent : sep ∉ s) {piece : Text} {rest : List Text}
    (pieces : cut sep t = piece :: rest) : cut sep (s ++ t) = (s ++ piece) :: rest := by
  induction s with
  | nil => exact pieces
  | cons c s ih =>
    simp only [List.mem_cons, not_or] at absent
    simp [cut, Ne.symm absent.1, ih absent.2]

/-- Apart from empty ones, the lines are those of the pieces between line feeds. -/
theorem nonempty_lines (t : Text) :
    (lines t).filter (· ≠ []) = ((cut '\n' t).flatMap lines).filter (· ≠ []) := by
  have noFeed {s : Text} (unbroken : ∀ c ∈ s, isLineBreak c = false) : '\n' ∉ s := fun inside =>
    absurd (unbroken _ inside) (by decide)
  induction t using break_induction with
  | unbroken t unbroken => rw [cut_of_notMem (noFeed unbroken), List.flatMap_singleton]
  | broken s c u unbroken breaks ih =>
    have absent := noFeed unbroken
    by_cases feed : c = '\n'
    · subst feed
      rw [lines_append unbroken breaks, cut_append absent, List.flatMap_cons, List.filter_append, ← ih,
        lines_of_unbroken unbroken]
      split <;> simp [*]
    · obtain ⟨piece, rest, pieces⟩ := List.exists_cons_of_ne_nil (cut_ne_nil '\n' u)
      have whole : cut '\n' (s ++ c :: u) = (s ++ c :: piece) :: rest := by
        have absent' : '\n' ∉ s ++ [c] := by simp [absent, Ne.symm feed]
        simpa using cut_append_of_notMem absent' pieces
      rw [pieces, List.flatMap_cons] at ih
      rw [whole, List.flatMap_cons, lines_append unbroken breaks, lines_append unbroken breaks, List.cons_append,
        List.filter_cons, List.filter_cons, ih]

theorem trimmedEnd_append (s : Text) (blank : ∀ c ∈ t, isBlank c = true) : trimmedEnd (s ++ t) = trimmedEnd s := by
  rw [trimmedEnd, trimmedEnd, List.reverse_append, List.dropWhile_append_of_pos (by simpa using blank)]

end Text

namespace IgnoreRule

/-- A text that ends with an escaped blank keeps it. -/
def EndsEscaped (t : Text) : Prop := [' ', '\\'] <+: t.reverse

instance (t : Text) : Decidable (EndsEscaped t) := inferInstanceAs (Decidable (_ <+: _))

/-- From its first break on, a line is white space, with no escaped blank right before. -/
def EndsAtBreak (line : Text) : Prop :=
  ∀ c ∈ line.dropWhile (! Text.isLineBreak ·),
    Text.isBlank c = true ∧ ¬ EndsEscaped (line.takeWhile (! Text.isLineBreak ·))

instance (line : Text) : Decidable (EndsAtBreak line) := List.decidableBAll _ _

variable {s t : Text} {c : Char}

theorem EndsAtBreak.split (ends : EndsAtBreak (s ++ c :: t)) (unbroken : ∀ d ∈ s, Text.isLineBreak d = false)
    (breaks : Text.isLineBreak c = true) : (∀ d ∈ t, Text.isBlank d = true) ∧ ¬ EndsEscaped s := by
  have all : ∀ d ∈ s, (! Text.isLineBreak d) = true := by simpa using unbroken
  rw [EndsAtBreak, List.dropWhile_append_of_pos all, List.takeWhile_append_of_pos all,
    List.dropWhile_cons_of_neg (by simp [breaks]), List.takeWhile_cons_of_neg (by simp [breaks]),
    List.append_nil] at ends
  exact ⟨fun d inside => (ends d (List.mem_cons_of_mem _ inside)).1, (ends c List.mem_cons_self).2⟩

theorem trimmed_of_bare (bare : ¬ EndsEscaped t) : trimmed t = Text.trimmedEnd t := if_neg bare

theorem trimmed_of_blank (blank : ∀ c ∈ t, Text.isBlank c = true) : trimmed t = [] := by
  have bare : ¬ EndsEscaped t := fun escaped =>
    absurd (blank '\\' (List.mem_reverse.1 (escaped.subset (by simp)))) (by decide)
  rw [trimmed_of_bare bare, ← List.nil_append t, Text.trimmedEnd_append [] blank]
  rfl

/-- White space behind a break holds no backslash, and a break is no blank. -/
theorem not_endsEscaped_append (s : Text) (breaks : Text.isLineBreak c = true)
    (blank : ∀ d ∈ t, Text.isBlank d = true) : ¬ EndsEscaped (s ++ c :: t) := by
  have reversed : ∀ d ∈ t.reverse, Text.isBlank d = true := by simpa using blank
  rw [EndsEscaped, List.reverse_append, List.reverse_cons, List.append_assoc, List.singleton_append]
  generalize t.reverse = back at reversed
  intro escaped
  rcases back with _ | ⟨last, _ | ⟨d, front⟩⟩
  · obtain ⟨rfl, _⟩ := List.cons_prefix_cons.1 escaped
    exact absurd breaks (by decide)
  · obtain ⟨rfl, _⟩ := List.cons_prefix_cons.1 (List.cons_prefix_cons.1 escaped).2
    exact absurd breaks (by decide)
  · obtain ⟨rfl, _⟩ := List.cons_prefix_cons.1 (List.cons_prefix_cons.1 escaped).2
    exact absurd (reversed '\\' (by simp)) (by decide)

/-- White space that begins with a break is taken off together with what is before it. -/
theorem trimmed_append (bare : ¬ EndsEscaped s) (breaks : Text.isLineBreak c = true)
    (blank : ∀ d ∈ t, Text.isBlank d = true) : trimmed (s ++ c :: t) = trimmed s := by
  have all : ∀ d ∈ c :: t, Text.isBlank d = true :=
    List.forall_mem_cons.2 ⟨Text.isBlank_of_isLineBreak breaks, blank⟩
  rw [trimmed_of_bare (not_endsEscaped_append s breaks blank), trimmed_of_bare bare, Text.trimmedEnd_append s all]

theorem ofLine_of_trimmed {line line' : Text} (same : trimmed line = trimmed line') : ofLine line = ofLine line' := by
  simp only [ofLine, same]

theorem ofLine_of_blank (blank : ∀ c ∈ t, Text.isBlank c = true) : ofLine t = .ok none := by
  simp [ofLine, trimmed_of_blank blank]

end IgnoreRule

namespace IgnoreRules

open IgnoreRule

variable {lines lines' : List Text}

/-- Empty lines make no difference. -/
theorem ofLines_congr (same : lines.filter (· ≠ []) = lines'.filter (· ≠ [])) : ofLines lines = ofLines lines' := by
  rw [ofLines, ofLines, same]

theorem ofLines_append (lines lines' : List Text) : ofLines (lines ++ lines') = (do
    let first ← ofLines lines
    let later ← ofLines lines'
    .ok (first ++ later)) := by
  simp only [ofLines, List.filter_append, List.mapM_append]
  cases (lines.filter (· ≠ [])).mapM ofLine with
  | error f => rfl
  | ok first =>
    cases (lines'.filter (· ≠ [])).mapM ofLine with
    | error f => rfl
    | ok later => exact congrArg Except.ok List.filterMap_append

theorem ofLines_singleton (line : Text) : ofLines [line] = (ofLine line).map Option.toList := by
  by_cases empty : line = []
  · subst empty
    rfl
  · rw [ofLines, List.filter_cons_of_pos (by simpa using empty), List.filter_nil, List.mapM_cons, List.mapM_nil]
    cases ofLine line with
    | error f => rfl
    | ok rule => cases rule <;> rfl

/-- Where each line is read alone as its parts are, all lines are. -/
theorem ofLines_flatMap {parts : Text → List Text} (same : ∀ line ∈ lines, ofLines (parts line) = ofLines [line]) :
    ofLines (lines.flatMap parts) = ofLines lines := by
  induction lines with
  | nil => rfl
  | cons line lines ih =>
    obtain ⟨here, later⟩ := List.forall_mem_cons.1 same
    rw [List.flatMap_cons, ofLines_append, here, ih later, show line :: lines = [line] ++ lines from rfl,
      ofLines_append]

theorem ofLines_lines_of_blank {t : Text} (blank : ∀ c ∈ t, Text.isBlank c = true) :
    ofLines (Text.lines t) = .ok [] := by
  induction t using Text.break_induction with
  | unbroken t unbroken =>
    rw [Text.lines_of_unbroken unbroken]
    split
    · rfl
    · rw [ofLines_singleton, ofLine_of_blank blank]
      rfl
  | broken s c u unbroken breaks ih =>
    have first : ∀ d ∈ s, Text.isBlank d = true := fun d inside => blank d (by simp [inside])
    have later := ih fun d inside => blank d (by simp [inside])
    rw [Text.lines_append unbroken breaks, ← List.singleton_append, ofLines_append, ofLines_singleton,
      ofLine_of_blank first, later]
    rfl

theorem ofLines_lines_of_endsAtBreak {line : Text} (ends : EndsAtBreak line) :
    ofLines (Text.lines line) = ofLines [line] := by
  induction line using Text.break_induction with
  | unbroken line unbroken =>
    apply ofLines_congr
    rw [Text.lines_of_unbroken unbroken]
    split
    · rename_i empty
      subst empty
      rfl
    · rfl
  | broken s c t unbroken breaks _ =>
    obtain ⟨blank, bare⟩ := ends.split unbroken breaks
    rw [Text.lines_append unbroken breaks, ← List.singleton_append, ofLines_append, ofLines_lines_of_blank blank,
      ofLines_singleton, ofLines_singleton, ofLine_of_trimmed (trimmed_append bare breaks blank)]
    cases ofLine s <;> simp [Except.map, bind, Except.bind]

end IgnoreRules

namespace FileSystem

/-- The rules of a file without carriage returns are those of the parts into which its lines
    are cut further. Where each line ends with its first break, they are the rules of the
    lines, one for each line, and decide alike about all paths. -/
theorem rules_of_lines (fs : FileSystem) {file : Path} {data : Text} (read : fs.read file = .ok data)
    (decodes : data.any Text.isLoneByte = false) (noReturn : '\r' ∉ data) :
    let lines := Text.cut '\n' data
    (fs.rules file).2 = IgnoreRules.ofLines (lines.flatMap Text.lines) ∧
      ((∀ line ∈ lines, IgnoreRule.EndsAtBreak line) →
        (fs.rules file).2 = IgnoreRules.ofLines lines ∧
          ∀ rules, (fs.rules file).2 = .ok rules → ∃ byLine, IgnoreRules.ofLines lines = .ok byLine ∧
            ∀ p directory, (Exclusion.byRules rules).excludes p directory =
              (Exclusion.byRules byLine).excludes p directory) := by
  intro lines
  have whole : (fs.rules file).2 = IgnoreRules.ofLines (lines.flatMap Text.lines) := by
    rw [← IgnoreRules.ofLines_congr (Text.nonempty_lines data)]
    simp only [rules, ruleLines, read, decodes, Text.unifiedBreaks_of_notMem noReturn]
    rfl
  refine ⟨whole, fun ends => ?_⟩
  have same : (fs.rules file).2 = IgnoreRules.ofLines lines :=
    whole.trans (IgnoreRules.ofLines_flatMap fun line inside =>
      IgnoreRules.ofLines_lines_of_endsAtBreak (ends line inside))
  exact ⟨same, fun rules reads => ⟨rules, same ▸ reads, fun _ _ => rfl⟩⟩

/-- Two files of rules: in `/torn` a form feed stands inside a line, in `/paged` all further
    breaks stand at the ends of lines. -/
def pageTree : FileSystem :=
  let node (path : String) (content : Content) : NodeSpec := ⟨.ofText path.toList, content, none, ⟨0, 0, 0⟩, []⟩
  .ofSpecs [node "/torn" (.regular "a\x0c*\n".toList), node "/paged" (.regular "a\x0c\n*.o \x0b \u2028\n!b.o\n".toList)]
    ⟨.slash, []⟩

/-- The line `a`, form feed, `*` is one rule, which takes no `b`. It is read as two, and the
    second takes all. -/
theorem form_feed_adds_rule :
    let file := Path.ofText "/torn".toList
    let data := "a\x0c*\n".toList
    let ignoresB (rules : IgnoreRules) := rules.ignores (.ofText "b".toList) false
    pageTree.read file = .ok data ∧ data.any Text.isLoneByte = false ∧ '\r' ∉ data ∧
      (pageTree.rules file).2.map ignoresB = .ok true ∧
      (IgnoreRules.ofLines (Text.cut '\n' data)).map ignoresB = .ok false := by
  decide +kernel

theorem rules_of_lines_paged :
    let file := Path.ofText "/paged".toList
    let data := "a\x0c\n*.o \x0b \u2028\n!b.o\n".toList
    (pageTree.rules file).2 = IgnoreRules.ofLines (Text.cut '\n' data) ∧
      (pageTree.rules file).2.map (fun rules => rules.ignores (.ofText "c.o".toList) false) = .ok true := by
  have read : pageTree.read (.ofText "/paged".toList) = .ok "a\x0c\n*.o \x0b \u2028\n!b.o\n".toList := by
    decide +kernel
  obtain ⟨_, atEnds⟩ := rules_of_lines pageTree read (by decide) (by decide)
  exact ⟨(atEnds (by decide)).1, by decide +kernel⟩

end FileSystem
end Inventory
