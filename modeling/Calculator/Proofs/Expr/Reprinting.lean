import Calculator.Proofs.Expr.Printing

/-!
# Expressions printed again

An expression that has been read is printed with its own parentheses: none where the text had some
too many, but always a pair behind a square root.  So the printed text needs no more nesting than
the text that was read, but for one more at each square root that had no parenthesis behind it
(`Grammar.Derives.need_le`).  These can be too many: `sqrt sqrt … 9` with 64 square roots is read,
and its own text is not (`Expr.parse_sixtyFour_roots`).
-/

namespace Calculator

namespace Grammar

/-! ## Square roots without parentheses -/

/-- Whether the token is a square root, with something else than a parenthesis behind it. -/
def isBareRoot (t : Token) (ts : List Token) : Bool :=
  t == UnaryOp.squareRoot.token && ts.head?.any (· != .symbol '(')

def bareRoots : List Token → Nat
  | [] => 0
  | t :: ts => (isBareRoot t ts).toNat + bareRoots ts

theorem isBareRoot_append {t : Token} {ts : List Token} (h : isBareRoot t ts) (us : List Token) :
    isBareRoot t (ts ++ us) := by
  cases ts with
  | nil => simp [isBareRoot] at h
  | cons => exact h

theorem bareRoots_append (ts us : List Token) :
    bareRoots ts + bareRoots us ≤ bareRoots (ts ++ us) := by
  induction ts with
  | nil => exact Nat.le_of_eq (Nat.zero_add _)
  | cons t ts ih =>
    rw [List.cons_append, bareRoots, bareRoots]
    have hbare : (isBareRoot t ts).toNat ≤ (isBareRoot t (ts ++ us)).toNat := by
      cases h : isBareRoot t ts with
      | false => exact Nat.zero_le _
      | true => rw [isBareRoot_append h]
    omega

theorem bareRoots_symbol (c : Char) (ts : List Token) :
    bareRoots (.symbol c :: ts) = bareRoots ts := by
  simp [bareRoots, isBareRoot, UnaryOp.token]

theorem bareRoots_sign {op : UnaryOp} (hop : op ≠ .squareRoot) (ts : List Token) :
    bareRoots (op.token :: ts) = bareRoots ts := by
  cases op with
  | squareRoot => exact absurd rfl hop
  | _ => exact bareRoots_symbol _ ts

theorem bareRoots_operator (op : BinaryOp) (ts : List Token) :
    bareRoots (op.token :: ts) = bareRoots ts := by
  cases op <;> exact bareRoots_symbol _ ts

theorem bareRoots_append_operator (ts : List Token) (op : BinaryOp) (us : List Token) :
    bareRoots ts + bareRoots us ≤ bareRoots (ts ++ op.token :: us) := by
  rw [← bareRoots_operator op us]
  exact bareRoots_append ts _

theorem bareRoots_root {ts : List Token} (hne : ts ≠ []) (h : ts.head? ≠ some (.symbol '(')) :
    bareRoots (UnaryOp.squareRoot.token :: ts) = bareRoots ts + 1 := by
  obtain ⟨t, us, rfl⟩ := List.exists_cons_of_ne_nil hne
  have ht : t ≠ .symbol '(' := fun ht => h (congrArg some ht)
  rw [bareRoots, Nat.add_comm]
  simp [isBareRoot, ht]

/-! ## What the printed text takes -/

/-- The printed tree takes `cost`, no more than the `n` that the tokens take, but for one more at each
bare root.  There is one to spare where the printed text has parentheses of its own, or the tokens
have them around a factor. -/
structure Reprints (level : Level) (ts : List Token) (e : Expr) (cost n : Nat) : Prop where
  le : cost ≤ n + bareRoots ts
  loose : level.rank < e.level.rank → cost + 1 ≤ n + bareRoots ts
  signed : level = .factor → signLed ts = false → e.isSigned → cost + 1 ≤ n + bareRoots ts
  grouped : level = .factor → ts.head? = some (.symbol '(') → cost + 1 ≤ n + bareRoots ts

variable {level : Level} {ts us : List Token} {e l r : Expr} {cost m n : Nat}

theorem Reprints.of_spare (h : cost + 1 ≤ n + bareRoots ts) : Reprints level ts e cost n :=
  ⟨Nat.le_of_succ_le h, fun _ => h, fun _ _ _ => h, fun _ _ => h⟩

theorem Reprints.of_rank (h : cost ≤ n + bareRoots ts) (hlevel : level ≠ .factor)
    (hrank : e.level.rank ≤ level.rank) : Reprints level ts e cost n :=
  ⟨h, fun hlt => absurd hrank (Nat.not_le_of_lt hlt), fun hf => absurd hf hlevel,
    fun hf => absurd hf hlevel⟩

theorem Reprints.raise {place : Level} (h : Reprints level ts e cost n) (hplace : place ≠ .factor)
    (hrank : level.rank ≤ place.rank) : Reprints place ts e cost n :=
  ⟨h.le, fun hlt => h.loose (Nat.lt_of_le_of_lt hrank hlt), fun hf => absurd hf hplace,
    fun hf => absurd hf hplace⟩

/-- An operand with its parentheses. -/
theorem Reprints.operand (op : BinaryOp) (side : Side)
    (h : Reprints (op.operandLevel side) ts e cost n)
    (hbase : op = .power → side = .left → signLed ts = false) :
    Expr.enclosedNeed (Expr.isEnclosed op side e) cost ≤ n + bareRoots ts := by
  unfold Expr.enclosedNeed
  split
  next henclosed =>
    rcases Expr.isEnclosed_iff.mp henclosed with ⟨rfl, rfl, hsigned⟩ | hlt
    · exact h.signed rfl (hbase rfl rfl) hsigned
    · exact h.loose hlt
  next => exact h.le

theorem Reprints.literal {value : Decimal} (h : value.negative = false) (whole : List Char)
    (fraction : Option (List Char)) (hcost : cost ≤ n) :
    Reprints .factor [.literal whole fraction] (.number value) cost n := by
  refine ⟨Nat.le_add_right_of_le hcost, fun hlt => absurd hlt (Nat.lt_irrefl _), fun _ _ hs => ?_,
    fun _ hhead => ?_⟩
  · rw [Expr.isSigned, h] at hs
    cases hs
  · cases hhead

/-- The parentheses behind a root cost one; a factor itself may cost `k`. -/
theorem Reprints.root (hne : ts ≠ []) (h : Reprints .factor ts e cost n) (k : Nat) :
    Reprints .factor (UnaryOp.squareRoot.token :: ts) (.unary .squareRoot e) (cost + 1 + k)
      (n + k) := by
  have hcost : cost + 1 + k ≤ n + k + bareRoots (UnaryOp.squareRoot.token :: ts) := by
    -- the printed parentheses stand in the tokens, too, or the root counts as bare
    by_cases hgroup : ts.head? = some (.symbol '(')
    · have := h.grouped rfl hgroup
      have : bareRoots ts ≤ bareRoots (UnaryOp.squareRoot.token :: ts) := Nat.le_add_left _ _
      omega
    · have := h.le
      rw [bareRoots_root hne hgroup]
      omega
  have hsigned : (Expr.unary .squareRoot e).isSigned = false := rfl
  refine ⟨hcost, fun hlt => absurd hlt (Nat.lt_irrefl _), fun _ _ hs => ?_, fun _ hhead => ?_⟩
  · rw [hsigned] at hs
    cases hs
  · exact absurd (Option.some.inj hhead) (by decide)

theorem Reprints.sign {op : UnaryOp} (hop : op ≠ .squareRoot) (h : Reprints .power ts e cost n)
    (k : Nat) : Reprints .factor (op.token :: ts) (.unary op e)
      (Expr.enclosedNeed (Expr.isEnclosedUnder op e) cost + k) (n + k) := by
  have hcost : Expr.enclosedNeed (Expr.isEnclosedUnder op e) cost + k ≤
      n + k + bareRoots (op.token :: ts) := by
    rw [bareRoots_sign hop, Expr.enclosedNeed]
    split
    next henclosed =>
      rw [Expr.isEnclosedUnder, beq_eq_false_iff_ne.mpr hop, Bool.false_or,
        Expr.isEnclosedAfterSign_iff] at henclosed
      have := h.loose henclosed
      omega
    next =>
      have := h.le
      omega
  refine ⟨hcost, fun hlt => absurd hlt (Nat.lt_irrefl _), fun _ hs => ?_, fun _ hhead => ?_⟩
  · rw [signLed_sign hop] at hs
    cases hs
  · exact absurd (Option.some.inj hhead) (by cases op <;> decide)

theorem Reprints.group (h : Reprints .sum ts e cost n) :
    Reprints .factor (.symbol '(' :: (ts ++ [.symbol ')'])) e cost (n + 1) := by
  have := h.le
  have := bareRoots_append ts [.symbol ')']
  refine .of_spare ?_
  rw [bareRoots_symbol]
  omega

/-! ## The nesting of the printed text -/

theorem Reprints.power (hb : Reprints .factor ts l l.need m) (hs : signLed ts = false)
    (he : Reprints .power us r r.need n) :
    Reprints .power (ts ++ BinaryOp.power.token :: us) (.binary .power l r)
      (Expr.binary .power l r).need (max m (n + 1)) := by
  have hleft := Reprints.operand .power .left hb fun _ _ => hs
  have hright := Reprints.operand .power .right he fun _ hside => (nomatch hside)
  have happend := bareRoots_append_operator ts .power us
  refine .of_rank ?_ (by decide) (Nat.le_refl _)
  rw [Expr.need]
  omega

theorem Reprints.binary {op : BinaryOp} {ws : List Token} (hop : op ≠ .power)
    (hlevel : op.level = level) (hl : Reprints (op.operandLevel .left) ts l l.need m)
    (hr : Reprints (op.operandLevel .right) us r r.need n)
    (happend : bareRoots ts + bareRoots us ≤ bareRoots ws) :
    Reprints level ws (.binary op l r) (Expr.binary op l r).need (max m n) := by
  have hleft := hl.operand op .left fun h => absurd h hop
  have hright := hr.operand op .right fun h => absurd h hop
  subst hlevel
  refine .of_rank ?_ (by cases op <;> decide) (Nat.le_refl _)
  rw [Expr.need_binary hop]
  omega

theorem Derives.reprints (h : Derives level ts e n) : Reprints level ts e e.need n := by
  induction h with
  | literal h =>
    have hneg := Decimal.negative_of_ofDigits? h
    exact .literal hneg _ _ (by rw [Expr.need, hneg]; exact Nat.le_refl 1)
  | root h ih => exact ih.root h.ne_nil 1
  | sign hop _ ih =>
    rw [Expr.need_unary]
    exact ih.sign hop 1
  | group _ ih => exact ih.group
  | base _ ih | ofPower _ ih | ofProduct _ ih => exact ih.raise (by decide) (by decide)
  | power _ hs _ ihb ihe => exact ihb.power hs ihe
  | multiplicative hop _ _ ihl ihr =>
    rcases hop with rfl | rfl <;>
      exact .binary (by decide) rfl ihl ihr (bareRoots_append_operator _ _ _)
  | juxtaposed _ _ _ ihl ihr => exact .binary (by decide) rfl ihl ihr (bareRoots_append _ _)
  | additive hop _ _ ihl ihr =>
    rcases hop with rfl | rfl <;>
      exact .binary (by decide) rfl ihl ihr (bareRoots_append_operator _ _ _)

/-- The printed text needs no more nesting than tokens that derive the tree, but for their square
roots without a parenthesis. -/
theorem Derives.need_le (h : Derives level ts e n) : e.need ≤ n + bareRoots ts :=
  h.reprints.le

/-- No literal has a sign. -/
theorem Derives.unsigned (h : Derives level ts e n) : e.unsigned = e := by
  induction h with
  | literal h =>
    rw [Expr.unsigned, if_neg]
    simp [Decimal.negative_of_ofDigits? h]
  | root _ ih | sign _ _ ih => rw [Expr.unsigned, ih]
  | group _ ih | base _ ih | ofPower _ ih | ofProduct _ ih => exact ih
  | power _ _ _ ihl ihr | multiplicative _ _ _ ihl ihr | juxtaposed _ _ _ ihl ihr
  | additive _ _ _ ihl ihr => rw [Expr.unsigned, ihl, ihr]

end Grammar

open Grammar

namespace Expr

/-! ## Square roots of square roots -/

/-- The text with `n` square roots before it, without parentheses. -/
def rootsText : Nat → List Char → List Char
  | 0, s => s
  | n + 1, s => Token.squareRoot ++ ' ' :: rootsText n s

def roots : Nat → Expr → Expr
  | 0, e => e
  | n + 1, e => unary .squareRoot (roots n e)

theorem scanAll_rootsText (n : Nat) (s : List Char) : Token.scanAll (rootsText n s) =
    List.replicate n UnaryOp.squareRoot.token ++ Token.scanAll s := by
  induction n with
  | zero => rfl
  | succ n ih =>
    have hroot : UnaryOp.squareRoot.token.Lexeme := by decide
    have hends : UnaryOp.squareRoot.token.EndsBefore (' ' :: rootsText n s) := by
      rw [Token.endsBefore_cons]
      decide
    have hblank : Token.scanAll (' ' :: rootsText n s) = Token.scanAll (rootsText n s) :=
      Token.scanAll_blank (by decide) _
    rw [List.replicate_succ, List.cons_append, ← ih, ← hblank]
    exact Token.scanAll_text hroot hends

theorem derives_roots {ts : List Token} {e : Expr} {m : Nat} (h : Derives .factor ts e m) (n : Nat) :
    Derives .factor (List.replicate n UnaryOp.squareRoot.token ++ ts) (roots n e) (m + n) := by
  induction n with
  | zero => exact h
  | succ n ih => exact .root ih

theorem height_roots (n : Nat) (e : Expr) : (roots n e).height = e.height + n := by
  induction n with
  | zero => rfl
  | succ n ih => rw [roots, height, ih, Nat.add_assoc]

theorem need_roots (n : Nat) (e : Expr) : (roots n e).need = e.need + 2 * n := by
  induction n with
  | zero => rfl
  | succ n ih => rw [roots, need, ih]; omega

/-- The number nine. -/
def nine : Decimal := ⟨⟨9, 0⟩, false, by decide⟩

theorem parse_rootsText {n : Nat} (hn : n < maxNesting) :
    parse (String.ofList (rootsText n ['9'])) = .ok (roots n (number nine)) := by
  have hnine : Derives .factor [.literal ['9'] none] (number nine) 1 := .literal rfl
  have hlexeme : (Token.literal ['9'] none).Lexeme := by decide
  have hscan := Token.scanAll_text hlexeme (Token.endsBefore_nil _)
  rw [Token.scanAll_nil] at hscan
  change Token.scanAll ['9'] = [.literal ['9'] none] at hscan
  have hd := (derives_roots hnine n).sum
  rw [← hscan, ← scanAll_rootsText] at hd
  have hread := parseChars_of_derives hd
  have hheight : (number nine).height = 0 := rfl
  rw [if_pos] at hread
  · rw [parse, String.toList_ofList]
    exact hread
  · rw [height_roots, hheight]
    unfold maxHeight maxNesting at *
    omega

/-- With 64 square roots and more, the parentheses behind them are too many. -/
theorem printed_roots_refused {n : Nat} (hn : 64 ≤ n) :
    ∃ err, parse (toString (roots n (number nine))) = .error err ∧ err.cause = .nestingTooDeep := by
  have hread := (roots n (number nine)).parse_toString
  have hneed : (number nine).need = 1 := rfl
  rw [if_neg] at hread
  · exact hread
  · rintro ⟨_, hle⟩
    rw [need_roots, hneed] at hle
    unfold maxNesting at hle
    omega

theorem parse_sixtyFour_roots :
    parse (String.ofList (rootsText 64 ['9'])) = .ok (roots 64 (number nine)) ∧
      ∃ err, parse (toString (roots 64 (number nine))) = .error err ∧
        err.cause = .nestingTooDeep :=
  ⟨parse_rootsText (by decide), printed_roots_refused (Nat.le_refl 64)⟩

/-! ## Reading again -/

/-- An expression that has been read is read again from its own text just if this text needs no more
nesting than there is; otherwise the text is refused for nesting.  It needs no more than the text
that was read, but for one more at each square root without a parenthesis. -/
theorem parse_reprinted {s : String} {e : Expr} (h : parse s = .ok e) :
    (parse (toString e) = .ok e ↔ e.need ≤ maxNesting) ∧
      (maxNesting < e.need →
        ∃ err, parse (toString e) = .error err ∧ err.cause = .nestingTooDeep) ∧
      ∃ n, Derives .sum (Token.scanAll s.toList) e n ∧ n ≤ maxNesting ∧
        e.need ≤ n + bareRoots (Token.scanAll s.toList) := by
  obtain ⟨ts, n, hts, hd, hheight, hn⟩ := parseChars_eq_ok_iff_writes.mp h
  rw [← Token.splits_iff.mp hts] at hd
  have hread := e.parse_toString
  rw [hd.unsigned] at hread
  by_cases hneed : e.need ≤ maxNesting
  · rw [if_pos ⟨hheight, hneed⟩] at hread
    exact ⟨⟨fun _ => hneed, fun _ => hread⟩, fun hlt => absurd hneed (Nat.not_le_of_lt hlt),
      n, hd, hn, hd.need_le⟩
  · rw [if_neg fun hwithin => hneed hwithin.2] at hread
    refine ⟨⟨fun hok => ?_, fun hle => absurd hle hneed⟩, fun _ => hread, n, hd, hn, hd.need_le⟩
    obtain ⟨err, herr, _⟩ := hread
    rw [hok] at herr
    cases herr

theorem parse_reprinted_root :
    parse (String.ofList (rootsText 1 ['9'])) = .ok (roots 1 (number nine)) ∧
      parse (toString (roots 1 (number nine))) = .ok (roots 1 (number nine)) := by
  have hread : parse (String.ofList (rootsText 1 ['9'])) = .ok (roots 1 (number nine)) :=
    parse_rootsText (by decide)
  exact ⟨hread, (parse_reprinted hread).1.mpr (by decide)⟩

end Expr

end Calculator
