import Calculator.Proofs.Session.Answers

/-!
# Transcripts

A session is a map over the lines of its input and has no memory: each line is answered as if it
were the only one (`run_transcript`).  `IsLines` says what the lines of an input are, `Course` which of
them are answered and what ends the session, and `Ends` what is printed then and whether the session
fails.  What stands behind the line that ends it is not looked at.
-/

namespace Calculator.Session

/-! ## Lines -/

/-- The lines of an input.  A newline, which is the byte 10, ends each of them, and a carriage return
right before it, the byte 13, is dropped.  A last line without a newline is taken as it is. -/
inductive IsLines : List UInt8 → List (List UInt8) → Prop
  | nil : IsLines [] []
  | last {line : List UInt8} : line ≠ [] → 10 ∉ line → IsLines line [line]
  | plain {line rest : List UInt8} {ls : List (List UInt8)} : 10 ∉ line → line.getLast? ≠ some 13 →
    IsLines rest ls → IsLines (line ++ 10 :: rest) (line :: ls)
  | returned {line rest : List UInt8} {ls : List (List UInt8)} : 10 ∉ line → IsLines rest ls →
    IsLines (line ++ 13 :: 10 :: rest) (line :: ls)

variable {input line rest : List UInt8} {ls : List (List UInt8)}

/-- An input is empty, or a line without a newline, or goes on behind the newline of its first line. -/
@[elab_as_elim]
theorem input_induction {P : List UInt8 → Prop} (nil : P [])
    (last : ∀ line, line ≠ [] → newline ∉ line → P line)
    (line : ∀ line rest, newline ∉ line → P rest → P (line ++ newline :: rest))
    (input : List UInt8) : P input := by
  induction hn : input.length using Nat.strongRecOn generalizing input with
  | ind n ih =>
    by_cases hmem : newline ∈ input
    · obtain ⟨first, rest, rfl, hfirst⟩ := List.eq_append_cons_of_mem hmem
      refine line first rest hfirst (ih rest.length ?_ rest rfl)
      rw [← hn, List.length_append, List.length_cons]
      omega
    · by_cases hne : input = []
      · rw [hne]
        exact nil
      · exact last input hne hmem

theorem chomp_of_ne (h : line.getLast? ≠ some carriageReturn) : chomp line = line := if_neg h

theorem chomp_append (line : List UInt8) : chomp (line ++ [carriageReturn]) = line := by
  rw [chomp, List.getLast?_concat, if_pos rfl, List.dropLast_concat]

theorem ne_newline_of_not_mem (h : newline ∉ line) : ∀ b ∈ line, (b != newline) = true := by
  intro b hb
  rw [bne_iff_ne]
  rintro rfl
  exact h hb

theorem lines_nil : lines [] = [] := by
  rw [lines]
  rfl

theorem lines_last (hne : line ≠ []) (h : newline ∉ line) : lines line = [line] := by
  have hdrop : line.dropWhile (· != newline) = [] :=
    List.dropWhile_eq_nil_iff.mpr (ne_newline_of_not_mem h)
  rw [lines]
  split
  · rw [List.isEmpty_eq_false_iff.mpr hne]
    rfl
  next heq =>
    rw [hdrop] at heq
    cases heq

theorem lines_line (h : newline ∉ line) (rest : List UInt8) :
    lines (line ++ newline :: rest) = chomp line :: lines rest := by
  have hne := ne_newline_of_not_mem h
  have hend : ¬ ((newline != newline) = true) := by decide
  have hdrop : (line ++ newline :: rest).dropWhile (· != newline) = newline :: rest := by
    rw [List.dropWhile_append_of_pos hne]
    exact List.dropWhile_cons_of_neg hend
  have htake : (line ++ newline :: rest).takeWhile (· != newline) = line := by
    rw [List.takeWhile_append_of_pos hne, List.takeWhile_cons, if_neg hend, List.append_nil]
  rw [lines]
  split
  next heq =>
    rw [hdrop] at heq
    cases heq
  next heq =>
    rw [hdrop] at heq
    cases heq
    rw [htake]

theorem lines_plain (h : newline ∉ line) (hlast : line.getLast? ≠ some carriageReturn)
    (rest : List UInt8) : lines (line ++ newline :: rest) = line :: lines rest := by
  rw [lines_line h, chomp_of_ne hlast]

theorem lines_returned (h : newline ∉ line) (rest : List UInt8) :
    lines (line ++ carriageReturn :: newline :: rest) = line :: lines rest := by
  have hline : newline ∉ line ++ [carriageReturn] := by
    rw [List.mem_append, List.mem_singleton, not_or]
    exact ⟨h, by decide⟩
  have hlines := lines_line hline rest
  rwa [chomp_append, List.append_assoc, List.singleton_append] at hlines

theorem isLines_lines (input : List UInt8) : IsLines input (lines input) := by
  induction input using input_induction with
  | nil =>
    rw [lines_nil]
    exact .nil
  | last line hne hline =>
    rw [lines_last hne hline]
    exact .last hne hline
  | line line rest hline ih =>
    by_cases hlast : line.getLast? = some carriageReturn
    · obtain ⟨line, rfl⟩ := List.getLast?_eq_some_iff.mp hlast
      rw [lines_line hline, chomp_append, List.append_assoc]
      exact .returned (fun hmem => hline (List.mem_append_left _ hmem)) ih
    · rw [lines_plain hline hlast]
      exact .plain hline hlast ih

theorem IsLines.lines_eq (h : IsLines input ls) : lines input = ls := by
  induction h with
  | nil => exact lines_nil
  | last hne hline => exact lines_last hne hline
  | plain hline hlast _ ih => exact (lines_plain hline hlast _).trans (congrArg _ ih)
  | returned hline _ ih => exact (lines_returned hline _).trans (congrArg _ ih)

/-- Whole lines do not hang on what follows them. -/
theorem lines_append (h : input = [] ∨ input.getLast? = some newline) (later : List UInt8) :
    lines (input ++ later) = lines input ++ lines later := by
  induction input using input_induction with
  | nil =>
    rw [lines_nil]
    rfl
  | last line hne hline =>
    rcases h with h | h
    · exact absurd h hne
    · exact absurd (List.mem_of_getLast? h) hline
  | line line rest hline ih =>
    rw [List.append_assoc, List.cons_append, lines_line hline, lines_line hline, ih, List.cons_append]
    rcases h with h | h
    · exact absurd h (by simp)
    rw [List.getLast?_append_of_ne_nil _ (List.cons_ne_nil _ _)] at h
    cases rest with
    | nil => exact .inl rfl
    | cons b rest => exact .inr (by rwa [List.getLast?_cons_cons] at h)

theorem IsLines.newline_not_mem (h : IsLines input ls) : ∀ line ∈ ls, newline ∉ line := by
  induction h with
  | nil => exact List.forall_mem_nil _
  | last _ hline => exact List.forall_mem_singleton.mpr hline
  | plain hline _ _ ih | returned hline _ ih => exact List.forall_mem_cons.mpr ⟨hline, ih⟩

/-! ## UTF-8 -/

/-- The bytes of a text. -/
def bytes (text : String) : List UInt8 := text.toList.flatMap String.utf8EncodeChar

theorem toByteArray_eq (text : String) : text.toByteArray = (bytes text).toByteArray :=
  String.utf8Encode_toList.symm

theorem toByteArray_eq_iff {text : String} :
    text.toByteArray = ⟨line.toArray⟩ ↔ bytes text = line := by
  rw [toByteArray_eq, ByteArray.ext_iff, List.data_toByteArray]
  exact ⟨fun h => by simpa using congrArg Array.toList h, fun h => by rw [h]⟩

theorem fromUTF8?_eq_some_iff {text : String} :
    String.fromUTF8? ⟨line.toArray⟩ = some text ↔ bytes text = line := by
  rw [← toByteArray_eq_iff, String.fromUTF8?]
  constructor
  · intro h
    split at h
    · rw [← Option.some.inj h]
      rfl
    · cases h
  · intro h
    rw [← h, dif_pos text.isValidUTF8]
    rfl

theorem fromUTF8?_eq_none_iff :
    String.fromUTF8? ⟨line.toArray⟩ = none ↔ ∀ text, bytes text ≠ line := by
  rw [Option.eq_none_iff_forall_not_mem]
  exact forall_congr' fun text => not_congr fromUTF8?_eq_some_iff

theorem unbroken_of_bytes {text : String} (h : newline ∉ bytes text) : Unbroken text :=
  fun hmem => h (List.mem_flatMap.mpr ⟨_, hmem, by decide⟩)

/-! ## Courses -/

/-- Of these lines the texts are answered, one after the other, and then the session ends so. -/
inductive Course : List (List UInt8) → List String → Ending → Prop
  | endOfInput : Course [] [] .endOfInput
  | goodbye (rest : List (List UInt8)) : Course (bytes "exit" :: rest) [] .goodbye
  | undecodable {line : List UInt8} (rest : List (List UInt8)) : (∀ text, bytes text ≠ line) →
    Course (line :: rest) [] .undecodable
  | answer {text : String} {rest : List (List UInt8)} {texts : List String} {ending : Ending} :
    text ≠ "exit" → Course rest texts ending →
    Course (bytes text :: rest) (text :: texts) ending

/-- What is printed at the end of a session, behind the last prompt, and its failure, if it is one. -/
inductive Ends : Ending → String → Option String → Prop
  | goodbye : Ends .goodbye "Goodbye!\n" none
  | endOfInput : Ends .endOfInput "" none
  | undecodable : Ends .undecodable "" (some "stream did not contain valid UTF-8")

variable {texts : List String} {ending : Ending}

theorem exists_course (ls : List (List UInt8)) : ∃ texts ending, Course ls texts ending := by
  induction ls with
  | nil => exact ⟨[], _, .endOfInput⟩
  | cons line rest ih =>
    by_cases hline : ∃ text, bytes text = line
    · obtain ⟨text, rfl⟩ := hline
      by_cases hfarewell : text = "exit"
      · subst hfarewell
        exact ⟨[], _, .goodbye rest⟩
      · obtain ⟨texts, ending, h⟩ := ih
        exact ⟨_, _, .answer hfarewell h⟩
    · exact ⟨[], _, .undecodable rest (not_exists.mp hline)⟩

theorem ends_output (ending : Ending) : Ends ending ending.output ending.failure? := by
  cases ending with
  | goodbye => exact .goodbye
  | endOfInput => exact .endOfInput
  | undecodable => exact .undecodable

theorem Course.unbroken (h : Course ls texts ending) (hls : ∀ line ∈ ls, newline ∉ line) :
    ∀ text ∈ texts, Unbroken text := by
  induction h with
  | endOfInput | goodbye | undecodable => simp
  | answer _ _ ih =>
    rw [List.forall_mem_cons] at hls ⊢
    exact ⟨unbroken_of_bytes hls.1, ih hls.2⟩

/-! ## Steps and runs -/

variable (showTree : Bool)

theorem step_text {text : String} (h : text ≠ farewell) :
    step showTree (bytes text) = .ok (respond showTree text).output := by
  rw [step, fromUTF8?_eq_some_iff.mpr rfl]
  exact if_neg h

theorem step_farewell : step showTree (bytes farewell) = .error .goodbye := by
  rw [step, fromUTF8?_eq_some_iff.mpr rfl]
  exact if_pos rfl

theorem step_undecodable (h : ∀ text, bytes text ≠ line) :
    step showTree line = .error .undecodable := by
  rw [step, fromUTF8?_eq_none_iff.mpr h]

theorem converse_error {ending : Ending} (h : step showTree line = .error ending)
    (rest : List (List UInt8)) :
    converse showTree (line :: rest) = ("> " ++ ending.output, ending) := by
  rw [converse, h, prompt]

theorem converse_ok {answer : String} (h : step showTree line = .ok answer)
    (rest : List (List UInt8)) : converse showTree (line :: rest) =
      ("> " ++ answer ++ (converse showTree rest).1, (converse showTree rest).2) := by
  rw [converse, h, prompt]

/-- What is printed for the texts, each after a prompt. -/
def answers (texts : List String) : String :=
  String.join (texts.map fun text => "> " ++ (respond showTree text).output)

theorem answers_cons (text : String) (texts : List String) : answers showTree (text :: texts) =
    "> " ++ (respond showTree text).output ++ answers showTree texts := by
  rw [answers, List.map_cons, String.join_cons]
  rfl

theorem Course.converse_eq (h : Course ls texts ending) :
    converse showTree ls = (answers showTree texts ++ ("> " ++ ending.output), ending) := by
  induction h with
  | endOfInput => rfl
  | goodbye rest => exact converse_error showTree (step_farewell showTree) rest
  | undecodable rest hline => exact converse_error showTree (step_undecodable showTree hline) rest
  | answer hfarewell _ ih =>
    rw [converse_ok showTree (step_text showTree hfarewell), ih, answers_cons]
    simp only [String.append_assoc]

/-- Lines behind the one that ends a conversation change nothing. -/
theorem converse_append (h : (converse showTree ls).2 ≠ .endOfInput)
    (later : List (List UInt8)) : converse showTree (ls ++ later) = converse showTree ls := by
  induction ls with
  | nil => exact absurd rfl h
  | cons line rest ih =>
    rw [List.cons_append]
    cases hstep : step showTree line with
    | error ending => rw [converse_error showTree hstep, converse_error showTree hstep]
    | ok answer =>
      rw [converse_ok showTree hstep] at h
      rw [converse_ok showTree hstep, converse_ok showTree hstep, ih h]

theorem run_eq (input : List UInt8) : run showTree input =
    (greeting ++ (converse showTree (lines input)).1, (converse showTree (lines input)).2) := rfl

theorem run_append (hinput : input.getLast? = some newline)
    (h : (run showTree input).2 ≠ .endOfInput) (later : List UInt8) :
    run showTree (input ++ later) = run showTree input := by
  rw [run_eq] at h
  rw [run_eq, run_eq, lines_append (.inr hinput), converse_append showTree h]

/-- What is printed before the first prompt. -/
def welcome : String :=
  "Welcome to the calculator!\n" ++
  "Please enter a mathematical expression to calculate, allowed operators are +, -, *, /, ^ and sqrt. " ++
  "You can also use parentheses ( ).\n" ++
  "Type 'exit' to quit the calculator.\n" ++
  "\n" ++
  "Example: 2 + 3 * (4 - 1)\n" ++
  "\n"

theorem greeting_eq : greeting = welcome := by decide +kernel

theorem Course.run_eq (hlines : IsLines input ls) (h : Course ls texts ending) : run showTree input =
    (welcome ++ (answers showTree texts ++ ("> " ++ ending.output)), ending) := by
  rw [Session.run_eq, hlines.lines_eq, h.converse_eq, greeting_eq]

/-- A session welcomes, answers the lines of its course, each by itself, and prints what belongs to its
ending; it fails just if a line was not UTF-8.  Bytes behind the line that ends it change nothing.  Each
answer ends in one line, which is the same with and without the drawing. -/
theorem run_transcript (input : List UInt8) :
    (∃ ls texts ending, IsLines input ls ∧ Course ls texts ending) ∧
      (∀ ls texts ending, IsLines input ls → Course ls texts ending →
        (∀ text ∈ texts, Unbroken text) ∧ ∃ closing, Ends ending closing ending.failure? ∧
          run showTree input = (welcome ++ (answers showTree texts ++ ("> " ++ closing)), ending)) ∧
      (input.getLast? = some 10 → (run showTree input).2 ≠ .endOfInput →
        ∀ later, run showTree (input ++ later) = run showTree input) ∧
      ∀ text, Unbroken text → AnsweredInOneLine text := by
  refine ⟨?_, ?_, run_append showTree, fun text => answeredInOneLine⟩
  · obtain ⟨texts, ending, hcourse⟩ := exists_course (lines input)
    exact ⟨_, texts, ending, isLines_lines input, hcourse⟩
  · intro ls texts ending hlines hcourse
    exact ⟨hcourse.unbroken hlines.newline_not_mem, _, ends_output ending,
      hcourse.run_eq showTree hlines⟩

/-- Two lines are answered before the farewell, and a byte that is no UTF-8 stands behind it. -/
theorem run_transcript_farewell :
    let input := bytes "2 + 3\r\n1 +\nexit\r\n"
    let ls := [bytes "2 + 3", bytes "1 +", bytes "exit"]
    IsLines input ls ∧ Course ls ["2 + 3", "1 +"] .goodbye ∧
      run true input = (welcome ++ ("> +\n├─ 2\n└─ 3\nResult: 5\n" ++
        "> Error: Expected an operand but the input ended at position 3\n> Goodbye!\n"), .goodbye) ∧
      Ending.failure? .goodbye = none ∧ input.getLast? = some 10 ∧
      (run true input).2 ≠ .endOfInput ∧ run true (input ++ [255]) = run true input ∧
      Unbroken "1 +" ∧ AnsweredInOneLine "1 +" := by
  intro input ls
  obtain ⟨-, hrun, hlater, hanswered⟩ := run_transcript true input
  have hfirst : 10 ∉ bytes "2 + 3" := by decide
  have hsecond : 10 ∉ bytes "1 +" := by decide
  have hreturn : (bytes "1 +").getLast? ≠ some 13 := by decide
  have hthird : 10 ∉ bytes "exit" := by decide
  have hlines : IsLines input ls :=
    .returned hfirst (.plain hsecond hreturn (.returned hthird .nil))
  have hcourse : Course ls ["2 + 3", "1 +"] .goodbye :=
    .answer (by decide) (.answer (by decide) (.goodbye []))
  obtain ⟨hunbroken, closing, hends, htranscript⟩ := hrun ls _ _ hlines hcourse
  generalize hfailure : Ending.failure? .goodbye = failure at hends
  cases hends with
  | goodbye =>
    have hanswers : answers true ["2 + 3", "1 +"] ++ ("> " ++ "Goodbye!\n") =
        "> +\n├─ 2\n└─ 3\nResult: 5\n" ++
          "> Error: Expected an operand but the input ended at position 3\n> Goodbye!\n" := by
      decide +kernel
    rw [hanswers] at htranscript
    have hlast : input.getLast? = some 10 := by decide
    have hending : (run true input).2 ≠ .endOfInput := by
      rw [htranscript]
      decide
    have htext : Unbroken "1 +" := hunbroken _ (by decide)
    exact ⟨hlines, hcourse, htranscript, hfailure, hlast, hending, hlater hlast hending [255], htext,
      hanswered _ htext⟩

end Calculator.Session
