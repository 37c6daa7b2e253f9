import Calculator.Proofs.Cursor.Following
import Calculator.Proofs.Cursor.Limit

/-!
# Texts read with a cursor

The routines follow the rules at every depth (`follows_perform`), and a cursor that is run from the
start of a text answers what the grammar answers (`read_apply`).

The routines count what is open, the rules what may still be opened.  The induction is on the latter:
it is less by one in whatever a routine calls with one more factor or exponent open.
-/

namespace Calculator

open Grammar (Level Rule maxNesting)

namespace Cursor

open Grammar (Cause Parsed Failure Derives)
open Text (byteLength dropBlanks)
open TokenSource (next? settle)

variable {text s r : List Char} {c c₀ c' : Cursor} {depth : Nat}

/-! ## Factors -/

section

variable {rule : Rule (List Char)}

theorem follows_unary (op : UnaryOp) {level : Level} {routine : Step Subtree}
    (hoperand : FollowsRule text level (c₀.depth + 1) routine rule) (hc : Since text c₀.opened c)
    (hdeep : c.deepest = max c₀.deepest (c₀.depth + 1)) (hs : next? s = some (op.token, r))
    (hr : Stands text c r)
    (hderives : ∀ {read e n}, Derives level read e n →
      Derives .factor (op.token :: read) (.unary op e) (n + 1))
    (hends : ∀ {read rest}, level.Ends read rest → Level.Ends .factor (op.token :: read) rest) :
    Follows text c₀.opened (Reads .factor c₀ s) (rule r >>= fun p => p.wrap op)
      ((routine >>= wrap text op) c) := by
  refine (hoperand c r hr hc.depth_eq).bind hc fun p c' hc' h' => ?_
  rintro ⟨read, n, hread, hd, hstop, hdeep'⟩
  refine follows_wrap op hc' h' ⟨op.token :: read, n + 1, ?_, hderives hd, hends hstop, ?_⟩
  · rw [Token.scanAll_of_scan_some hs, hread]
    rfl
  · have hdepth : c.depth = c₀.depth + 1 := hc.depth_eq
    omega

theorem follows_group {power : Step Subtree} (hlt : c₀.depth < maxNesting)
    (hpower : FollowsRule text .power (c₀.depth + 1) power rule) (hc : Since text c₀.opened c)
    (hdeep : c.deepest = max c₀.deepest (c₀.depth + 1)) (hs : next? s = some (.symbol '(', r))
    (hr : Stands text c r) : Follows text c₀.opened (Reads .factor c₀ s) (Grammar.group rule r)
      (group text power c) := by
  refine (follows_expression hlt hpower c r hr hc.depth_eq).bind hc fun p c' hc' h' => ?_
  rintro ⟨read, n, hread, hd, -, hdeep'⟩
  rw [bind_ok (skipBlanks_apply h')]
  rcases matchChar_cases (d := ')') (by decide) h'.settled with ⟨u, hu, hbehind, hmatch⟩ |
    ⟨hne, hmatch⟩
  · rw [bind_ok hmatch, hu]
    refine .read ((hc'.advanced _).advanced _) hbehind
      ⟨.symbol '(' :: (read ++ [.symbol ')']), n + 1, ?_, hd.group, by simp [Level.Ends], ?_⟩
    · rw [Token.scanAll_of_scan_some hs, hread, Token.scanAll_of_scan_some hu]
      simp
    · have hdepth : c.depth = c₀.depth + 1 := hc.depth_eq
      show c'.deepest = _
      omega
  · rw [bind_ok hmatch]
    split
    next hu => exact absurd hu (hne _)
    next => exact follows_refuse (hc'.advanced _) h'.settled _

theorem readLeaf_cons {d : Char} {v : List Char} (h : Stands text c (d :: v)) : readLeaf text c =
    (if d.isDigit || d == '.' then readNumber text
      else if d.isAlpha then readWord text
      else refuse text (.unexpectedCharacter d)) c :=
  bind_ok (peek_apply h) _

section

variable {factor power : Rule (List Char)} (hc : Since text c₀.opened c)
  (h : Stands text c (dropBlanks s))

include hc h

theorem follows_literal (hdeep : c.deepest = max c₀.deepest (c₀.depth + 1)) {whole : List Char}
    {fraction : Option (List Char)} (hs : next? s = some (.literal whole fraction, r)) :
    Follows text c₀.opened (Reads .factor c₀ s) (Grammar.factorStep factor power s)
      (readLeaf text c) := by
  obtain ⟨htext, ht, hr⟩ := Token.dropBlanks_of_scan hs
  obtain ⟨d, v, hv⟩ := List.exists_cons_of_ne_nil ht.text_ne_nil
  have hd : (d.isDigit || d == '.') = true := by
    simpa using ht.isDigit_or_point d (hv ▸ List.mem_cons_self)
  have hnumber : readLeaf text c = readNumber text c := by
    rw [htext, hv] at h
    rw [readLeaf_cons h, if_pos hd]
  have hrule : Grammar.factorStep factor power s =
      Grammar.leaf s r (.literal whole fraction) (Decimal.ofDigits? whole (fraction.getD [])) := by
    rw [Grammar.factorStep, hs]
  rw [hnumber, readNumber_literal ht hr (htext ▸ h), hrule]
  cases hvalue : Decimal.ofDigits? whole (fraction.getD []) with
  | none =>
    exact follows_refuseAt hc h _ _
  | some value =>
    rw [htext] at h
    exact .read (hc.advanced _) h.advanced ⟨[.literal whole fraction], 1,
      Token.scanAll_of_scan_some hs, .literal hvalue, by simp [Level.Ends], hdeep⟩

theorem follows_word {Q : Parsed (List Char) → Cursor → Prop} {letters : List Char}
    (hs : next? s = some (.word letters, r)) (hletters : letters ≠ Token.squareRoot) :
    Follows text c₀.opened Q (Grammar.factorStep factor power s) (readLeaf text c) := by
  obtain ⟨htext, ht, hr⟩ := Token.dropBlanks_of_scan hs
  obtain ⟨d, v, rfl⟩ := List.exists_cons_of_ne_nil ht.2
  have hd : d.isAlpha := ht.1 d List.mem_cons_self
  have hdigit : ¬ (d.isDigit || d == '.') := by
    rw [Text.isDigit_eq_false_of_isAlpha hd, Bool.false_or, beq_iff_eq]
    rintro rfl
    exact absurd hd (by decide)
  have hword : readLeaf text c = readWord text c := by
    rw [htext] at h
    rw [readLeaf_cons h, if_neg hdigit, if_pos hd]
  have hrule : Grammar.factorStep factor power s =
      .error ⟨.unknownIdentifier (String.ofList (d :: v)), settle s⟩ := by
    rw [Grammar.factorStep, hs]
    exact if_neg hletters
  rw [hword, readWord_apply ht hr (htext ▸ h), hrule]
  exact follows_refuseAt hc h _ _

theorem follows_symbol {Q : Parsed (List Char) → Cursor → Prop} {d : Char}
    (hs : next? s = some (.symbol d, r)) (hplus : d ≠ '+') (hminus : d ≠ '-') (hopen : d ≠ '(') :
    Follows text c₀.opened Q (Grammar.factorStep factor power s) (readLeaf text c) := by
  obtain ⟨htext, ht, hr⟩ := Token.dropBlanks_of_scan hs
  have hcons : Stands text c (d :: r) := by rwa [htext] at h
  by_cases hpoint : d = '.'
  · subst hpoint
    have hrule : Grammar.factorStep factor power s = .error ⟨.expectedNumber, settle s⟩ := by
      rw [Grammar.factorStep, hs]
      rfl
    rw [readLeaf_cons hcons, if_pos (by decide), readNumber_point hr hcons, hrule]
    exact follows_refuseAt hc h _ _
  · have hdigit : ¬ (d.isDigit || d == '.') := by simp [ht.1, hpoint]
    have hletter : ¬ d.isAlpha := by simp [ht.2.1]
    rw [readLeaf_cons hcons, if_neg hdigit, if_neg hletter,
      Grammar.factorStep_symbol hs hplus hminus hopen hpoint]
    exact follows_refuse hc h _

theorem follows_end {Q : Parsed (List Char) → Cursor → Prop} (hs : next? s = none) :
    Follows text c₀.opened Q (Grammar.factorStep factor power s) (readLeaf text c) := by
  have hrefuse : readLeaf text c = refuse text .unexpectedEnd c := by
    rw [Token.scan_eq_none_iff.mp hs] at h
    exact bind_ok (peek_apply h) _
  have hrule : Grammar.factorStep factor power s = .error ⟨.unexpectedEnd, settle s⟩ := by
    rw [Grammar.factorStep, hs]
  rw [hrefuse, hrule]
  exact follows_refuse hc h .unexpectedEnd

end

end

section

variable {factor power : Step Subtree} {factorRule powerRule : Rule (List Char)}

/-- What is read with a factor open is what the rule for factors reads. -/
theorem follows_factorFrom (hlt : c.depth < maxNesting)
    (hfactor : FollowsRule text .factor (c.depth + 1) factor factorRule)
    (hpower : FollowsRule text .power (c.depth + 1) power powerRule) (h : Stands text c s) :
    Follows text c.opened (Reads .factor c s) (Grammar.factorStep factorRule powerRule s)
      (factorFrom text factor power c.opened) := by
  have hopened : Stands text c.opened s := h.congr rfl
  have hc := (Since.refl text c.opened).advanced (byteLength (s.takeWhile Text.isBlank))
  have hs := hopened.settled
  rw [factorFrom, bind_ok (skipBlanks_apply hopened)]
  rcases matchKeyword_cases hs with ⟨r, n, hnext, hr, hmatch⟩ | ⟨hroot, hmatch⟩
  · rw [bind_ok hmatch, if_pos rfl, Grammar.factorStep, hnext]
    refine follows_unary .squareRoot hfactor (hc.advanced n) rfl hnext hr .root fun hends hsign => ?_
    exact hends (by rwa [Grammar.signLed_root] at hsign)
  rw [bind_ok hmatch, if_neg Bool.false_ne_true]
  rcases matchChar_cases (d := '+') (by decide) hs with ⟨r, hnext, hr, hmatch⟩ | ⟨hplus, hmatch⟩
  · rw [bind_ok hmatch, if_pos rfl, Grammar.factorStep, hnext]
    exact follows_unary .plus hpower (hc.advanced _) rfl hnext hr (.sign (by decide))
      fun hends _ => hends
  rw [bind_ok hmatch, if_neg Bool.false_ne_true]
  rcases matchChar_cases (d := '-') (by decide) hs with ⟨r, hnext, hr, hmatch⟩ | ⟨hminus, hmatch⟩
  · rw [bind_ok hmatch, if_pos rfl, Grammar.factorStep, hnext]
    exact follows_unary .minus hpower (hc.advanced _) rfl hnext hr (.sign (by decide))
      fun hends _ => hends
  rw [bind_ok hmatch, if_neg Bool.false_ne_true]
  rcases matchChar_cases (d := '(') (by decide) hs with ⟨r, hnext, hr, hmatch⟩ | ⟨hopen, hmatch⟩
  · rw [bind_ok hmatch, if_pos rfl, Grammar.factorStep, hnext]
    exact follows_group hlt hpower (hc.advanced _) rfl hnext hr
  rw [bind_ok hmatch, if_neg Bool.false_ne_true]
  cases hnext : next? s with
  | none => exact follows_end hc hs hnext
  | some next =>
    obtain ⟨t, r⟩ := next
    cases t with
    | literal whole fraction => exact follows_literal hc hs rfl hnext
    | word letters => exact follows_word hc hs hnext fun heq => hroot r (heq ▸ hnext)
    | symbol d =>
      exact follows_symbol hc hs hnext (fun heq => hplus r (heq ▸ hnext))
        (fun heq => hminus r (heq ▸ hnext)) fun heq => hopen r (heq ▸ hnext)

theorem follows_openFactor (hlt : depth < maxNesting)
    (hfactor : FollowsRule text .factor (depth + 1) factor factorRule)
    (hpower : FollowsRule text .power (depth + 1) power powerRule) :
    FollowsRule text .factor depth (openFactor text (factorFrom text factor power))
      (Grammar.factorStep factorRule powerRule) := by
  rintro c s h rfl
  rw [openFactor, modify_bind]
  have hinside := follows_factorFrom (c := c.called .factor) hlt hfactor hpower (h.congr rfl)
  exact (Follows.nested (c := c.called .factor) hlt hinside fun _ _ => id).trans
    (since_called h hlt.le .factor)

end

/-! ## Powers -/

theorem stops_power_scanAll (h : ∀ r, next? s ≠ some (BinaryOp.power.token, r)) :
    Level.Stops .power (Token.scanAll s) := by
  intro hhead
  cases hs : next? s with
  | none =>
    rw [Token.scanAll_of_scan_none hs] at hhead
    cases hhead
  | some next =>
    rw [Token.scanAll_of_scan_some hs] at hhead
    exact h next.2 (hs.trans (congrArg (fun t => some (t, next.2)) (Option.some.inj hhead)))

theorem follows_exponent {power : Step Subtree} {rule : Rule (List Char)} {b : Parsed (List Char)}
    {read : List Token} {m : Nat} (hlt : c₀.depth < maxNesting)
    (hpower : FollowsRule text .power (c₀.depth + 1) power rule) (hc : Since text c₀ c)
    (h : Stands text c r) (hnext : next? b.rest = some (.symbol '^', r))
    (hread : Token.scanAll s = read ++ Token.scanAll b.rest) (hd : Derives .factor read b.tree m)
    (hends : Level.Ends .factor read (Token.scanAll b.rest))
    (hdeep : c.deepest = max c₀.deepest (c₀.depth + m)) :
    Follows text c₀ (Reads .power c₀ s) (rule r >>= fun e => b.join .power e)
      ((nested text power >>= join text .power ⟨b.tree, b.height⟩) c) := by
  have hdepth : c.depth = c₀.depth := hc.depth_eq
  have hinside := hpower c.opened r (h.congr rfl) (congrArg (· + 1) hdepth)
  have hnested : Follows text c (Reads .power c.opened r) (rule r) (nested text power c) :=
    .nested (hdepth.trans_lt hlt) hinside fun _ _ => id
  refine hnested.bind hc fun e c' hc' h' => ?_
  rintro ⟨us, n, hus, hd', hends', hdeep'⟩
  change c'.deepest = max (max c.deepest (c.depth + 1)) (c.depth + 1 + n) at hdeep'
  have htokens : Token.scanAll b.rest = BinaryOp.power.token :: (us ++ Token.scanAll e.rest) := by
    rw [Token.scanAll_of_scan_some hnext, hus]
    rfl
  refine follows_join .power hc' h' ⟨read ++ BinaryOp.power.token :: us, max m (n + 1), ?_,
    .power hd (Grammar.signLed_of_ends hends htokens) hd', hends', ?_⟩
  · rw [hread, htokens, List.append_assoc, List.cons_append]
  · omega

theorem follows_powerFrom {factor power : Step Subtree} {factorRule powerRule : Rule (List Char)}
    (hlt : depth < maxNesting) (hfactor : FollowsRule text .factor depth factor factorRule)
    (hpower : FollowsRule text .power (depth + 1) power powerRule) :
    FollowsRule text .power depth (powerFrom text factor power)
      (Grammar.powerStep factorRule powerRule) := by
  rintro c s h rfl
  rw [powerFrom, modify_bind, Grammar.powerStep]
  have hcalled := since_called h hlt.le .power
  refine (hfactor (c.called .power) s (h.congr rfl) rfl).bind hcalled fun b c' hc' hb => ?_
  rintro ⟨read, m, hread, hd, hends, hdeep⟩
  have hc := hc'.advanced (byteLength (b.rest.takeWhile Text.isBlank))
  rw [bind_ok (skipBlanks_apply hb)]
  rcases matchChar_cases (d := '^') (by decide) hb.settled with ⟨r, hnext, hr, hmatch⟩ | ⟨hne, hmatch⟩
  · rw [bind_ok hmatch, hnext]
    exact follows_exponent hlt hpower (hc.advanced _) hr hnext hread hd hends hdeep
  · have hrest : Token.scanAll (settle b.rest) = Token.scanAll b.rest := Token.scanAll_settle b.rest
    rw [bind_ok hmatch]
    split
    next hnext => exact absurd hnext (hne _)
    next =>
      refine .read hc hb.settled ⟨read, m, by rw [hread, hrest], hd.base, ?_, hdeep⟩
      rw [hrest]
      exact stops_power_scanAll hne

/-! ## All routines -/

/-- Where too many are open, a text is refused before anything is read. -/
theorem openFactor_of_le (inside : Step Subtree) (h : Stands text c s) (hle : maxNesting ≤ c.depth) :
    openFactor text inside c =
      some (.error (ParseError.ofFailure text ⟨.nestingTooDeep, s⟩), c.called .factor) := by
  have hcalled : Stands text (c.called .factor) s := h.congr rfl
  rw [openFactor, modify_bind, nested_of_le (c := c.called .factor) hle]
  exact refuse_apply hcalled .nestingTooDeep

theorem follows_openFactor_full (text : List Char) (inside : Step Subtree) :
    FollowsRule text .factor maxNesting (openFactor text inside) (Grammar.factor 0) := by
  intro c s h hdepth
  rw [openFactor_of_le inside h hdepth.ge]
  exact .refused (since_called h hdepth.le .factor) h le_rfl

theorem follows_powerFrom_full (text : List Char) (inside exponent : Step Subtree) :
    FollowsRule text .power maxNesting (powerFrom text (openFactor text inside) exponent)
      (Grammar.power 0) := by
  intro c s h hdepth
  have hcalled : Stands text (c.called .power) s := h.congr rfl
  rw [powerFrom, modify_bind, bind_error (openFactor_of_le inside hcalled hdepth.ge)]
  exact .refused ((since_called h hdepth.le .power).trans (since_called hcalled hdepth.le .factor)) h
    le_rfl

/-- At every depth factors and powers follow the rules with the room that is left. -/
theorem follows_factor_power (text : List Char) {room : Nat} (hroom : depth + room = maxNesting) :
    FollowsRule text .factor depth (factor text room) (Grammar.factor room) ∧
      FollowsRule text .power depth (power text room) (Grammar.power room) := by
  induction room generalizing depth with
  | zero =>
    obtain rfl : depth = maxNesting := hroom
    exact ⟨follows_openFactor_full text _, follows_powerFrom_full text _ _⟩
  | succ room ih =>
    have hlt : depth < maxNesting := by omega
    have hroom' : depth + 1 + room = maxNesting := by omega
    obtain ⟨hfactor, hpower⟩ := ih hroom'
    have hfactor' := follows_openFactor hlt hfactor hpower
    exact ⟨hfactor', follows_powerFrom hlt hfactor' hpower⟩

/-- At every depth the routines follow the rules with the room that is left. -/
theorem follows_perform (text : List Char) {room : Nat} (hroom : depth + room = maxNesting)
    (routine : Routine) :
    FollowsRule text routine.level depth (perform text room routine) (routine.rule room) := by
  obtain ⟨hfactor, hpower⟩ := follows_factor_power text hroom
  have hle : depth ≤ maxNesting := Nat.le.intro hroom
  cases routine with
  | expression => exact follows_expression hle hpower
  | layer l =>
    cases l with
    | sum => exact follows_sum hle hpower
    | product => exact follows_product hle hpower
  | power => exact hpower
  | factor => exact hfactor

/-! ## A whole text -/

theorem factorStep_settle (factor power : Rule (List Char)) (s : List Char) :
    Grammar.factorStep factor power (settle s) = Grammar.factorStep factor power s := by
  have hnext : next? (settle s) = next? s := Token.scan_dropBlanks s
  have hsettle : settle (settle s) = settle s := Text.dropBlanks_dropBlanks s
  simp only [Grammar.factorStep, Grammar.leaf, hnext, hsettle]

/-- Blanks before a sum are passed by its first factor, if there is room for one. -/
theorem sum_settle {room : Nat} (h : room ≠ 0) (s : List Char) :
    Grammar.sum (Grammar.power room) (settle s) = Grammar.sum (Grammar.power room) s := by
  obtain ⟨room, rfl⟩ := Nat.exists_eq_succ_of_ne_zero h
  have hpower : Grammar.power (room + 1) (settle s) = Grammar.power (room + 1) s := by
    rw [Grammar.power, Grammar.powerStep, Grammar.powerStep, factorStep_settle]
  rw [Grammar.sum, Grammar.product, hpower]
  rfl

theorem next?_of_ne_nil (h : dropBlanks s ≠ []) : ∃ next, next? s = some next :=
  Option.ne_none_iff_exists'.mp fun hnone => h (Token.scan_eq_none_iff.mp hnone)

theorem expression_of_nil (room : Nat) (h : dropBlanks s = []) :
    Grammar.expression room s = .error ⟨.emptyInput, dropBlanks s⟩ := by
  rw [Grammar.expression, show next? s = none from Token.scan_eq_none_iff.mpr h]
  rfl

theorem expression_of_ne_nil (room : Nat) (h : dropBlanks s ≠ []) : Grammar.expression room s =
    Grammar.sum (Grammar.power room) s >>= fun p =>
      if dropBlanks p.rest = [] then .ok p.tree else .error ⟨.trailingInput, dropBlanks p.rest⟩ := by
  obtain ⟨next, hs⟩ := next?_of_ne_nil h
  simp only [Grammar.expression, hs]
  congr 1
  funext p
  split
  next hnone => rw [if_pos (Token.scan_eq_none_iff.mp hnone)]
  next hsome =>
    rw [if_neg fun hnil => Option.some_ne_none _ (hsome.symm.trans (Token.scan_eq_none_iff.mpr hnil))]
    rfl

/-- The cursor answers what the grammar does, and the highest depth on the way is the nesting of the
text. -/
def Agrees (text : List Char) (a : Except (Failure (List Char)) Expr)
    (y : Option (Except ParseError Expr × Cursor)) : Prop :=
  ∃ after, y = some (a.mapError (ParseError.ofFailure text), after) ∧ Since text start after ∧
    ∀ t, a = .ok t → Derives .sum (Token.scanAll text) t after.deepest

theorem agrees_error (hc : Since text start c) (f : Failure (List Char)) :
    Agrees text (.error f) (some (.error (ParseError.ofFailure text f), c)) := by
  refine ⟨c, rfl, hc, ?_⟩
  rintro t ⟨⟩

theorem agrees_refuse (hc : Since text start c) (h : Stands text c s) (cause : Cause) :
    Agrees text (.error ⟨cause, s⟩) (refuse text cause c) := by
  rw [refuse_apply h]
  exact agrees_error hc _

/-- Behind the sum the text must end. -/
theorem agrees_end {p : Parsed (List Char)} (hc : Since text start c) (h : Stands text c p.rest)
    (hread : Reads .sum start text p c) : Agrees text
      (if dropBlanks p.rest = [] then .ok p.tree else .error ⟨.trailingInput, dropBlanks p.rest⟩)
      ((do
        skipBlanks text
        if ← atEnd text then return p.tree
        else refuse text .trailingInput) c) := by
  have hskipped := hc.advanced (byteLength (p.rest.takeWhile Text.isBlank))
  rw [bind_ok (skipBlanks_apply h), bind_ok (atEnd_apply h.settled)]
  by_cases hend : dropBlanks p.rest = []
  · rw [if_pos (decide_eq_true hend), if_pos hend]
    refine ⟨_, rfl, hskipped, fun t ht => ?_⟩
    obtain rfl := Except.ok.inj ht
    obtain ⟨read, n, htokens, hd, -, hdeep⟩ := hread
    rw [Token.scanAll_of_scan_none (Token.scan_eq_none_iff.mpr hend), List.append_nil] at htokens
    have hdeepest : c.deepest = n := by rw [hdeep, start, Nat.zero_add, Nat.zero_max]
    rw [htokens]
    exact hdeepest ▸ hd
  · rw [if_neg hend, if_neg (by simp [hend])]
    exact agrees_refuse hskipped h.settled .trailingInput

theorem agrees_read (text : List Char) :
    Agrees text (Grammar.expression maxNesting text) (read text maxNesting start) := by
  have h := stands_start text
  have hskipped := (Since.refl text start).advanced (byteLength (text.takeWhile Text.isBlank))
  rw [read, bind_ok (skipBlanks_apply h), bind_ok (atEnd_apply h.settled)]
  by_cases hend : dropBlanks text = []
  · rw [if_pos (decide_eq_true hend), expression_of_nil _ hend]
    exact agrees_refuse hskipped h.settled .emptyInput
  · rw [if_neg (by simp [hend]), expression_of_ne_nil _ hend]
    have hsum : Grammar.sum (Grammar.power maxNesting) (dropBlanks text) =
        Grammar.sum (Grammar.power maxNesting) text := sum_settle (by decide) text
    have hfollows := follows_perform text (Nat.zero_add maxNesting) .expression _ _ h.settled rfl
    rw [Routine.rule, hsum] at hfollows
    generalize hrun : perform text maxNesting .expression _ = y at hfollows
    generalize Grammar.sum (Grammar.power maxNesting) text = a at hfollows
    cases hfollows.trans hskipped with
    | refused hc hs hle =>
      rw [bind_error hrun]
      exact agrees_error hc _
    | read hc hrest hread =>
      rw [bind_ok hrun]
      obtain ⟨read, n, htokens, hderives⟩ := hread
      exact agrees_end hc hrest ⟨read, n, (Token.scanAll_settle text).symm.trans htokens, hderives⟩

/-- The cursor reads a text as the grammar does. -/
theorem read_apply (text : List Char) : ∃ after,
    (∀ limit, maxNesting ≤ limit → read text limit start = some (Expr.parseChars text, after)) ∧
      Since text start after ∧
      ∀ t, Expr.parseChars text = .ok t → Derives .sum (Token.scanAll text) t after.deepest := by
  obtain ⟨after, hread, hsince, hderives⟩ := agrees_read text
  refine ⟨after, fun limit hle => read_le text hle _ _ hread, hsince, fun t ht => hderives t ?_⟩
  rw [Expr.parseChars] at ht
  cases h : Grammar.expression maxNesting text with
  | error f =>
    rw [h] at ht
    cases ht
  | ok e =>
    rw [h] at ht
    exact congrArg _ (Except.ok.inj ht)

end Cursor

end Calculator
