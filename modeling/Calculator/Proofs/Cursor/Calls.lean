import Calculator.Proofs.Cursor.Reading

/-!
# How calls come back

A call that is made between two characters and within the bound on nesting has an outcome: it comes to
an end, and on the way no part of the text is taken that does not begin and end between characters.  It
leaves the depth as it was; it reads one character at least, or refuses the text not before the place
where it was made (`Call.Returns`).  All calls that are made on the way through a text are of this kind.
-/

namespace Calculator

open Grammar (Level Rule Parsed Failure maxNesting maxHeight)
open Text (byteLength)

namespace Call

/-- Where a call that has read a part of the text leaves the cursor, and how high the tree is. -/
structure Reads (text : List Char) (call : Call) (answer : Cursor.Subtree) (after : Cursor) : Prop where
  isBoundary : Text.IsBoundary text after.position
  position_lt : call.position < after.position
  position_le : after.position ≤ byteLength text
  height_eq : answer.height = answer.tree.height
  height_le : answer.height ≤ maxHeight

/-- Where a call refuses the text. -/
structure Refuses (text : List Char) (call : Call) (err : ParseError) : Prop where
  isBoundary : Text.IsBoundary text err.position
  le_position : call.position ≤ err.position
  position_le : err.position ≤ byteLength text

/-- Whatever has been done before, the call has an outcome, which is the same with every limit that
leaves room for all that may still be opened; and the depth is the same again. -/
def Returns (text : List Char) (call : Call) : Prop :=
  ∀ c : Cursor, c.position = call.position → c.depth = call.depth → ∃ answer after,
    (∀ limit, maxNesting ≤ call.depth + limit →
      Cursor.perform text limit call.routine c = some (answer, after)) ∧
    after.depth = call.depth ∧
      match answer with
      | .ok subtree => call.Reads text subtree after
      | .error err => call.Refuses text err

end Call

namespace Routine

/-- The rule does with a text what it does with its tokens. -/
theorem agree (routine : Routine) (room : Nat) :
    Grammar.RulesAgree (fun s ts => Token.scanAll s = ts) (fun s ts => Token.scanAll s = ts)
      (routine.rule room : Rule (List Char)) (routine.level.rule room) := by
  have hmatches := Grammar.simulates_scanAll.matches
  obtain ⟨hfactor, hpower⟩ := Grammar.agree_factor_power hmatches room
  cases routine with
  | expression => exact Grammar.agree_sum hmatches hpower
  | layer l =>
    cases l with
    | sum => exact Grammar.agree_sum hmatches hpower
    | product => exact Grammar.agree_product hmatches hpower
  | power => exact hpower
  | factor => exact hfactor

/-- A rule counts the height of its tree, and stays within the bound. -/
theorem height_of_rule {routine : Routine} {room : Nat} {s : List Char} {p : Parsed (List Char)}
    (h : routine.rule room s = .ok p) : p.height = p.tree.height ∧ p.height ≤ maxHeight := by
  have hagree := routine.agree room s _ rfl
  rw [h] at hagree
  generalize hq : routine.level.rule room (Token.scanAll s) = answer at hagree
  cases hagree with
  | read halike =>
    obtain ⟨read, n, -, hd, -⟩ := Grammar.sound_rule routine.level room _ _ hq
    rw [halike.height, halike.tree]
    exact ⟨hd.height_eq, hd.height_le⟩

end Routine

namespace Cursor

variable {text s r : List Char} {c c' : Cursor} {n : Nat}

theorem exists_stands (h : Text.IsBoundary text n) : ∃ s, ∀ c : Cursor, c.position = n → Stands text c s := by
  obtain ⟨u, s, hu, hn⟩ := h
  exact ⟨s, fun c hc => ⟨u, hu, hc.trans hn.symm⟩⟩

/-- What has been derived is not empty: the cursor has moved. -/
theorem position_lt_of_reads {level : Level} {p : Parsed (List Char)} (h : Stands text c s)
    (h' : Stands text c' p.rest) (hle : c.position ≤ c'.position) (hread : Reads level c s p c') :
    c.position < c'.position := by
  refine Nat.lt_of_le_of_ne hle fun heq => ?_
  obtain ⟨read, n, htokens, hd, -⟩ := hread
  have hrest : s = p.rest := Option.some.inj (h.fromByte?.symm.trans (heq ▸ h'.fromByte?))
  rw [hrest] at htokens
  exact hd.ne_nil (List.append_left_eq_self.mp htokens.symm)

end Cursor

namespace Call

theorem refuses_of_stands {text : List Char} {call : Call} {f : Failure (List Char)} {d : Cursor}
    (h : Cursor.Stands text d f.rest) (hle : call.position ≤ d.position) :
    call.Refuses text (ParseError.ofFailure text f) := by
  have herr : (ParseError.ofFailure text f).position = d.position := by
    show byteLength text - byteLength f.rest = _
    rw [← h.position_add, Nat.add_sub_cancel]
  exact ⟨herr ▸ h.isBoundary, herr ▸ hle, herr ▸ Nat.le.intro h.position_add⟩

theorem returns_of_isEntered {text : List Char} {call : Call} (h : call.IsEntered text) :
    call.Returns text := by
  intro c hposition hdepth
  obtain ⟨s, hs⟩ := Cursor.exists_stands h.1
  have hstands := hs c hposition
  have hroom : call.depth + (maxNesting - call.depth) = maxNesting := Nat.add_sub_of_le h.2
  have hfollows := Cursor.follows_perform text hroom call.routine c s hstands hdepth
  generalize hy : Cursor.perform text _ call.routine c = y at hfollows
  generalize ha : Routine.rule _ call.routine s = a at hfollows
  have hlimit {r} (hr : y = some r) (limit : Nat) (hle : maxNesting ≤ call.depth + limit) :
      Cursor.perform text limit call.routine c = some r :=
    Cursor.perform_le text (Nat.sub_le_iff_le_add'.mpr hle) call.routine c r (hy.trans hr)
  cases hfollows with
  | @read p after hc hrest hread =>
    obtain ⟨hheight, hle⟩ := Routine.height_of_rule ha
    have hlt := Cursor.position_lt_of_reads hstands hrest hc.position_le hread
    exact ⟨_, after, hlimit rfl, hc.depth_eq.trans hdepth, hrest.isBoundary, hposition ▸ hlt,
      Nat.le.intro hrest.position_add, hheight, hle⟩
  | @refused f after d hc hd hle =>
    exact ⟨_, after, hlimit rfl, hc.depth_eq.trans hdepth, refuses_of_stands hd (hposition ▸ hle)⟩

end Call

/-- Calls that are made between two characters, with at most `maxNesting` factors and exponents open,
come back; a text is read with such calls only, and its tree or its refusal is what they come to. -/
theorem Expr.parse_calls (text : String) :
    (∀ call : Call, call.IsEntered text.toList → call.Returns text.toList) ∧
      ∃ after, (∀ limit, maxNesting ≤ limit →
          Cursor.read text.toList limit Cursor.start = some (parse text, after)) ∧
        after.depth = 0 ∧ ∀ call ∈ after.calls, call.IsEntered text.toList := by
  obtain ⟨after, hread, hsince, -⟩ := Cursor.read_apply text.toList
  exact ⟨fun _ => Call.returns_of_isEntered, after, hread, hsince.depth_eq,
    hsince.isEntered (List.forall_mem_nil _)⟩

/-- A call within parentheses behind a blank of two bytes, in a text that is refused. -/
theorem Expr.parse_calls_blank :
    let text := "2\u00a0(3"
    let call : Call := ⟨.expression, 4, 1⟩
    call.IsEntered text.toList ∧ call.Returns text.toList ∧ ∃ after,
      Cursor.read text.toList maxNesting Cursor.start = some (parse text, after) ∧
        call ∈ after.calls := by
  intro text call
  obtain ⟨hreturns, after, hread, -, hentered⟩ := parse_calls text
  have hcalls : (Cursor.read text.toList maxNesting Cursor.start).any (call ∈ ·.2.calls) := by
    decide +kernel
  rw [hread maxNesting le_rfl] at hcalls
  have hcall : call ∈ after.calls := of_decide_eq_true hcalls
  exact ⟨hentered call hcall, hreturns call (hentered call hcall), after, hread maxNesting le_rfl,
    hcall⟩

end Calculator
