import Calculator.Proofs.Expr.Characters
import Calculator.Proofs.Expr.Reprinting
import Calculator.Proofs.Token.Parentheses

/-!
# Parentheses that are needed

No text with fewer parentheses than the printed one writes the same tree, if a square root without a
parenthesis behind it counts as one that could be added (`Grammar.Derives.opens_tokens_le`).  Every
square root of a printed text has its parenthesis.  So a printed text that loses any other pair is
refused, or read as a different tree (`Expr.parse_unenclosed`).
-/

namespace Calculator

namespace Grammar

/-! ## Counting parentheses -/

/-- How many parentheses are opened. -/
def opens (ts : List Token) : Nat := ts.count (.symbol '(')

variable {level : Level} {ts us vs : List Token} {e l r : Expr} {n : Nat}

theorem opens_append (ts us : List Token) : opens (ts ++ us) = opens ts + opens us :=
  List.count_append

theorem opens_cons {t : Token} (ht : t ≠ .symbol '(') (ts : List Token) :
    opens (t :: ts) = opens ts :=
  List.count_cons_of_ne ht

theorem opens_unary (op : UnaryOp) (ts : List Token) : opens (op.token :: ts) = opens ts :=
  opens_cons (by cases op <;> decide) ts

theorem opens_binary (op : BinaryOp) (ts us : List Token) :
    opens (ts ++ op.token :: us) = opens ts + opens us := by
  rw [opens_append, opens_cons (by cases op <;> decide)]

theorem opens_group (ts us : List Token) :
    opens (.symbol '(' :: (ts ++ .symbol ')' :: us)) = opens ts + opens us + 1 := by
  have hgroup : opens (ts ++ .symbol ')' :: us) = opens ts + opens us := by
    rw [opens_append, opens_cons (by decide)]
  rw [← hgroup]
  exact List.count_cons_self

theorem opens_enclose (parentheses : Bool) (ts : List Token) :
    opens (Expr.encloseTokens parentheses ts) = Expr.enclosedNeed parentheses (opens ts) := by
  cases parentheses with
  | false => rfl
  | true => exact opens_group ts []

theorem opens_tokens_number (value : Decimal) : opens (Expr.number value).tokens = 0 := by
  rw [Expr.tokens]
  split
  · rfl
  · rfl

theorem opens_tokens_unary (op : UnaryOp) (e : Expr) : opens (Expr.unary op e).tokens =
    Expr.enclosedNeed (Expr.isEnclosedUnder op e) (opens e.tokens) := by
  rw [Expr.tokens, opens_unary, opens_enclose]

theorem opens_tokens_binary (op : BinaryOp) (l r : Expr) : opens (Expr.binary op l r).tokens =
    Expr.enclosedNeed (Expr.isEnclosed op .left l) (opens l.tokens) +
      Expr.enclosedNeed (Expr.isEnclosed op .right r) (opens r.tokens) := by
  rw [Expr.tokens, opens_binary, opens_enclose, opens_enclose]

/-! ## The printed text has as few as possible -/

/-- An operator between its operands, or none between factors. -/
theorem Reprints.binary_opens {op : BinaryOp} (hlevel : op.level = level)
    (hl : Reprints (op.operandLevel .left) ts l (opens l.tokens) (opens ts))
    (hbase : op = .power → signLed ts = false)
    (hr : Reprints (op.operandLevel .right) us r (opens r.tokens) (opens us))
    (hopens : opens vs = opens ts + opens us) (hroots : bareRoots ts + bareRoots us ≤ bareRoots vs) :
    Reprints level vs (.binary op l r) (opens (Expr.binary op l r).tokens) (opens vs) := by
  have hleft := hl.operand op .left fun h _ => hbase h
  have hright := hr.operand op .right fun _ hside => (nomatch hside)
  subst hlevel
  refine .of_rank ?_ (by cases op <;> decide) (Nat.le_refl _)
  rw [opens_tokens_binary, hopens]
  omega

theorem Derives.reprints_opens (h : Derives level ts e n) :
    Reprints level ts e (opens e.tokens) (opens ts) := by
  induction h with
  | @literal _ _ value h =>
    refine .literal (Decimal.negative_of_ofDigits? h) _ _ ?_
    rw [opens_tokens_number]
    exact Nat.zero_le _
  | root h ih =>
    rw [opens_tokens_unary, opens_unary]
    exact ih.root h.ne_nil 0
  | sign hop _ ih =>
    rw [opens_tokens_unary, opens_unary]
    exact ih.sign hop 0
  | @group ts _ _ _ ih =>
    rw [opens_group]
    exact ih.group
  | base _ ih | ofPower _ ih | ofProduct _ ih => exact ih.raise (by decide) (by decide)
  | power _ hs _ ihb ihe =>
    exact .binary_opens rfl ihb (fun _ => hs) ihe (opens_binary .power _ _)
      (bareRoots_append_operator _ _ _)
  | multiplicative hop _ _ ihl ihr | additive hop _ _ ihl ihr =>
    rcases hop with rfl | rfl <;>
      exact .binary_opens rfl ihl (fun h => (nomatch h)) ihr (opens_binary _ _ _)
        (bareRoots_append_operator _ _ _)
  | juxtaposed _ _ _ ihl ihr =>
    exact .binary_opens rfl ihl (fun h => (nomatch h)) ihr (opens_append _ _)
      (bareRoots_append _ _)

/-- The printed text has no more parentheses than tokens that derive the tree, but for their square
roots without one. -/
theorem Derives.opens_tokens_le (h : Derives level ts e n) :
    opens e.tokens ≤ opens ts + bareRoots ts :=
  h.reprints_opens.le

/-! ## Square roots of a printed text -/

theorem bareRoots_group (ts us : List Token) :
    bareRoots (UnaryOp.squareRoot.token :: .symbol '(' :: (ts ++ us)) = bareRoots (ts ++ us) := by
  rw [bareRoots, bareRoots_symbol]
  exact Nat.zero_add _

theorem bareRoots_literal (whole : List Char) (fraction : Option (List Char)) (ts : List Token) :
    bareRoots (.literal whole fraction :: ts) = bareRoots ts := by
  simp [bareRoots, isBareRoot, UnaryOp.token]

theorem bareRoots_enclose {parentheses : Bool}
    (h : ∀ us, bareRoots (ts ++ us) = bareRoots us) (us : List Token) :
    bareRoots (Expr.encloseTokens parentheses ts ++ us) = bareRoots us := by
  cases parentheses with
  | false => exact h us
  | true =>
    show bareRoots (.symbol '(' :: (ts ++ [.symbol ')'] ++ us)) = bareRoots us
    rw [bareRoots_symbol, List.append_assoc, h, List.singleton_append, bareRoots_symbol]

/-- Each square root of a printed text has its parenthesis, whatever follows the text. -/
theorem bareRoots_tokens_append (e : Expr) (us : List Token) :
    bareRoots (e.tokens ++ us) = bareRoots us := by
  induction e generalizing us with
  | number value =>
    rw [Expr.tokens]
    split
    · exact (bareRoots_sign (by decide) _).trans (bareRoots_literal _ _ us)
    · exact bareRoots_literal _ _ us
  | unary op e ih =>
    rw [Expr.tokens, List.cons_append]
    by_cases hop : op = .squareRoot
    · subst hop
      have henclosed : bareRoots (Expr.encloseTokens true e.tokens ++ us) = bareRoots us :=
        bareRoots_enclose ih us
      show bareRoots (UnaryOp.squareRoot.token :: .symbol '(' :: (e.tokens ++ [.symbol ')'] ++ us)) = _
      rw [bareRoots_group, ← henclosed, Expr.encloseTokens, if_pos rfl, List.cons_append,
        bareRoots_symbol]
    · rw [bareRoots_sign hop, bareRoots_enclose ih]
  | binary op l r ihl ihr =>
    rw [Expr.tokens, List.append_assoc, bareRoots_enclose ihl, List.cons_append,
      bareRoots_operator, bareRoots_enclose ihr]

theorem bareRoots_tokens (e : Expr) : bareRoots e.tokens = 0 := by
  have h := bareRoots_tokens_append e []
  rwa [List.append_nil] at h

theorem bareRoots_append_of_last (h : ts.getLast? ≠ some UnaryOp.squareRoot.token)
    (us : List Token) : bareRoots (ts ++ us) = bareRoots ts + bareRoots us := by
  induction ts with
  | nil => exact (Nat.zero_add _).symm
  | cons t ts ih =>
    rw [List.cons_append, bareRoots, bareRoots]
    cases ts with
    | nil =>
      have ht : t ≠ UnaryOp.squareRoot.token := fun ht => h (congrArg some ht)
      simp [isBareRoot, ht, bareRoots]
    | cons t' ts =>
      rw [List.getLast?_cons_cons] at h
      rw [ih h, Nat.add_assoc]
      rfl

/-- A pair that is not behind a square root can go without a square root losing its own. -/
theorem bareRoots_ungroup
    (hlast : us.getLast? ≠ some UnaryOp.squareRoot.token)
    (h : bareRoots (us ++ .symbol '(' :: (ts ++ .symbol ')' :: vs)) = 0) :
    bareRoots (us ++ (ts ++ vs)) = 0 := by
  rw [bareRoots_append_of_last hlast, bareRoots_symbol] at h
  have hinside : ts.getLast? ≠ some UnaryOp.squareRoot.token := by
    intro hroot
    obtain ⟨ts', rfl⟩ := List.getLast?_eq_some_iff.mp hroot
    have hle := bareRoots_append ts' (UnaryOp.squareRoot.token :: .symbol ')' :: vs)
    have hbare : bareRoots (UnaryOp.squareRoot.token :: .symbol ')' :: vs) =
        bareRoots (.symbol ')' :: vs) + 1 := bareRoots_root (by simp) (by simp)
    rw [List.append_assoc, List.singleton_append] at h
    omega
  rw [bareRoots_append_of_last hinside, bareRoots_symbol] at h
  rw [bareRoots_append_of_last hlast, bareRoots_append_of_last hinside]
  exact h

end Grammar

open Grammar

namespace Expr

/-! ## Trees that are printed with the same parentheses -/

variable {e f : Expr}

theorem isEnclosed_congr (hop : e.binaryOp? = f.binaryOp?) (hsigned : e.isSigned = f.isSigned)
    (op : BinaryOp) (side : Side) : isEnclosed op side e = isEnclosed op side f := by
  rw [isEnclosed, isEnclosed, hop, hsigned]

theorem isEnclosedUnder_congr (hop : e.binaryOp? = f.binaryOp?) (op : UnaryOp) :
    isEnclosedUnder op e = isEnclosedUnder op f := by
  rw [isEnclosedUnder, isEnclosedUnder, isEnclosedAfterSign, isEnclosedAfterSign, hop]

theorem binaryOp?_unsigned (e : Expr) : e.unsigned.binaryOp? = e.binaryOp? := by
  cases e with
  | number value =>
    rw [unsigned]
    split <;> rfl
  | unary | binary => rfl

theorem isSigned_unsigned (e : Expr) : e.unsigned.isSigned = e.isSigned := by
  cases e with
  | number value =>
    rw [unsigned]
    split
    next h => exact h.symm
    next => rfl
  | unary | binary => rfl

/-- A negative number is printed as the minus of its absolute value is. -/
theorem tokens_unsigned (e : Expr) : e.unsigned.tokens = e.tokens := by
  induction e with
  | number value =>
    rw [unsigned]
    split
    next h =>
      rw [tokens.eq_1 value, if_pos h]
      rfl
    next => rfl
  | unary op e ih =>
    rw [unsigned, tokens, tokens, ih, isEnclosedUnder_congr e.binaryOp?_unsigned]
  | binary op l r ihl ihr =>
    rw [unsigned, tokens, tokens, ihl, ihr,
      isEnclosed_congr l.binaryOp?_unsigned l.isSigned_unsigned,
      isEnclosed_congr r.binaryOp?_unsigned r.isSigned_unsigned]

theorem eq_unsigned_of_parse {t : Expr} (h : parse (toString e) = .ok t) : t = e.unsigned := by
  have hread := e.parse_toString
  rw [h] at hread
  split at hread
  next => exact Except.ok.inj hread
  next =>
    obtain ⟨err, herr, -⟩ := hread
    cases herr

theorem negative_of_unsigned {value : Decimal} (h : (number value).unsigned = number value) :
    value.negative = false := by
  cases hneg : value.negative with
  | false => rfl
  | true =>
    rw [unsigned, if_pos hneg] at h
    cases h

theorem Equiv.binaryOp?_eq (h : e.Equiv f) : e.binaryOp? = f.binaryOp? := by
  cases e <;> cases f <;> first | exact h.elim | rfl | exact congrArg some h.1

theorem Equiv.isSigned_eq (h : e.Equiv f) (he : e.unsigned = e) (hf : f.unsigned = f) :
    e.isSigned = f.isSigned := by
  cases e <;> cases f <;> try exact h.elim
  · rw [isSigned, isSigned, negative_of_unsigned he, negative_of_unsigned hf]
  · rw [isSigned, isSigned, h.1]
  · rfl

/-- Trees without negative numbers have the same parentheses if they differ in the digits of their
leaves only. -/
theorem Equiv.opens_tokens_eq (h : e.Equiv f) (he : e.unsigned = e) (hf : f.unsigned = f) :
    opens e.tokens = opens f.tokens := by
  induction e generalizing f with
  | number value =>
    cases f with
    | number => rw [opens_tokens_number, opens_tokens_number]
    | unary | binary => exact h.elim
  | unary op e ih =>
    cases f with
    | unary op' f =>
      obtain ⟨rfl, h⟩ := h
      rw [unsigned, unary.injEq] at he hf
      rw [opens_tokens_unary, opens_tokens_unary, ih h he.2 hf.2,
        isEnclosedUnder_congr h.binaryOp?_eq]
    | number | binary => exact h.elim
  | binary op l r ihl ihr =>
    cases f with
    | binary op' l' r' =>
      obtain ⟨rfl, hl, hr⟩ := h
      rw [unsigned, binary.injEq] at he hf
      rw [opens_tokens_binary, opens_tokens_binary, ihl hl he.2.1 hf.2.1, ihr hr he.2.2 hf.2.2,
        isEnclosed_congr hl.binaryOp?_eq (hl.isSigned_eq he.2.1 hf.2.1),
        isEnclosed_congr hr.binaryOp?_eq (hr.isSigned_eq he.2.2 hf.2.2)]
    | number | unary => exact h.elim

/-! ## Without a pair of parentheses -/

/-- A printed text that loses two of its parentheses, of which the first is not right behind a square
root, is not read any more, or it is read as a tree that differs from the one before. -/
theorem parse_unenclosed {before inside after : String} {t t' : Expr}
    (hread : parse (toString e) = .ok t)
    (htext : toString e = before ++ "(" ++ inside ++ ")" ++ after)
    (hroot : ¬ Token.squareRoot <:+ before.toList)
    (h : parse (before ++ inside ++ after) = .ok t') : ¬ t'.Equiv t := by
  have hchars : e.text = before.toList ++ '(' :: (inside.toList ++ ')' :: after.toList) := by
    rw [← toString_toList, htext]
    simp
  have hclose : e.text = before.toList ++ '(' :: inside.toList ++ ')' :: after.toList := by
    rw [hchars, List.append_assoc, List.cons_append]
  have htokens := e.scanAll_text
  rw [hchars, Token.scanAll_group] at htokens
  have hungrouped : Token.scanAll (before ++ inside ++ after).toList =
      Token.scanAll before.toList ++ (Token.scanAll inside.toList ++ Token.scanAll after.toList) := by
    rw [String.toList_append, String.toList_append,
      Token.scanAll_append_of_head (isBreak_of_head? hclose),
      Token.scanAll_append_of_last (isBreak_of_getLast? hchars hroot), List.append_assoc]
  have hroots := bareRoots_tokens e
  rw [← htokens] at hroots
  have hfewer := bareRoots_ungroup (getLast?_scanAll_ne hchars hroot) hroots
  obtain ⟨_, _, _, hd, -, -⟩ := parseChars_eq_ok_iff_writes.mp hread
  obtain ⟨_, _, hts, hd', -, -⟩ := parseChars_eq_ok_iff_writes.mp h
  rw [← Token.splits_iff.mp hts, hungrouped] at hd'
  have hle := hd'.opens_tokens_le
  intro hequiv
  have hopens : opens t'.tokens = opens e.tokens := by
    rw [hequiv.opens_tokens_eq hd'.unsigned hd.unsigned, eq_unsigned_of_parse hread, tokens_unsigned]
  rw [← htokens, opens_append, opens_group] at hopens
  rw [hfewer, opens_append, opens_append] at hle
  omega

/-- A difference that is subtracted, and what it becomes without its parentheses. -/
theorem parse_unenclosed_difference :
    parse ("1 - " ++ "2 - 3" ++ "") ≠ parse ("1 - " ++ "(" ++ "2 - 3" ++ ")" ++ "") := by
  let digit (n : Fin 10) : Expr := number ⟨⟨n, 0⟩, false, by revert n; decide⟩
  let printed : Expr := binary .subtract (digit 1) (binary .subtract (digit 2) (digit 3))
  let unenclosed : Expr := binary .subtract (binary .subtract (digit 1) (digit 2)) (digit 3)
  have htext : toString printed = "1 - " ++ "(" ++ "2 - 3" ++ ")" ++ "" := by decide +kernel
  have hread : parse (toString printed) = .ok printed := by decide +kernel
  have h : parse ("1 - " ++ "2 - 3" ++ "") = .ok unenclosed := by decide +kernel
  have hdiffer : ¬ unenclosed.Equiv printed := parse_unenclosed hread htext (by decide) h
  rw [h, ← htext, hread]
  rintro heq
  exact hdiffer (by rw [Except.ok.inj heq]; decide +kernel)

end Expr

end Calculator
