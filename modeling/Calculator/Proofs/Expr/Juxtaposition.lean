import Calculator.Proofs.Grammar.Language
import Calculator.Proofs.Token.Breaks

/-!
# Products without an operator

A `*` behind a factor and before a token that begins one can be left out: the text is read as the same
tree, or refused for the same cause (`Expr.parse_juxtaposed`).  Whatever rules are open behind the
first factor, all but the one for products pass over a `*` and over the beginning of a factor alike
(`Grammar.matches_abridges`).
-/

namespace Calculator

namespace Grammar

variable {ts us : List Token} {a b : Token}

/-- The second list is the first one without some `*` between two factors. -/
inductive Abridges : List Token → List Token → Prop
  | nil : Abridges [] []
  | keep {ts us : List Token} (a : Token) : Abridges ts us → Abridges (a :: ts) (a :: us)
  | drop {ts us : List Token} {a b : Token} : a.endsFactor → b.beginsFactor →
    Abridges (b :: ts) (b :: us) → Abridges (a :: .symbol '*' :: b :: ts) (a :: b :: us)

theorem abridges_refl (ts : List Token) : Abridges ts ts := by
  induction ts with
  | nil => exact .nil
  | cons t ts ih => exact .keep t ih

theorem Abridges.append_left (h : Abridges ts us) (vs : List Token) :
    Abridges (vs ++ ts) (vs ++ us) := by
  induction vs with
  | nil => exact h
  | cons v vs ih => exact .keep v ih

/-- Behind a factor the next token may be a `*` that is left out. -/
inductive AbridgesBehind : List Token → List Token → Prop
  | same {ts us : List Token} : Abridges ts us → AbridgesBehind ts us
  | star {ts us : List Token} {b : Token} : b.beginsFactor → Abridges (b :: ts) (b :: us) →
    AbridgesBehind (.symbol '*' :: b :: ts) (b :: us)

theorem matches_abridges : Matches Abridges AbridgesBehind where
  settle_behind := id
  settle := id
  behind := .same
  next?_none := by
    intro ts us h hnone
    cases h with
    | nil => rfl
    | keep | drop => cases hnone
  next?_some := by
    intro ts ts' us t h hnext
    cases h with
    | nil => cases hnext
    | keep a h =>
      cases hnext
      exact ⟨_, rfl, .same h, fun _ => h⟩
    | drop ha hb h =>
      cases hnext
      exact ⟨_, rfl, .star hb h, fun hne => absurd ha (by rw [hne]; decide)⟩
  product := by
    intro ts us h
    cases h with
    | same h => exact .inl h
    | star hb h =>
      exact .inr ⟨.multiply, _, _, rfl, productOperator?_of_beginsFactor rfl hb, h⟩

/-- What is read does not depend on the `*` between factors, and neither does the cause of a refusal. -/
theorem mapError_expression_of_abridges (h : Abridges ts us) (room : Nat) :
    (expression room ts).mapError Failure.cause = (expression room us).mapError Failure.cause :=
  (matches_abridges.agree_expression room h).mapError_cause

end Grammar

namespace Expr

open Grammar

variable {before after : String} {ts us : List Token} {a b : Token}

/-- A `*` behind the end of a factor and before the beginning of one is as good as a blank: in either
case the text is read as the same tree, or refused for the same cause. -/
theorem parse_juxtaposed (hbefore : Token.Splits before.toList (ts ++ [a])) (ha : a.endsFactor)
    (hafter : Token.Splits after.toList (b :: us)) (hb : b.beginsFactor) :
    Token.Splits (before ++ "*" ++ after).toList (ts ++ a :: .symbol '*' :: b :: us) ∧
      (parse (before ++ "*" ++ after)).mapError ParseError.cause =
        (parse (before ++ " " ++ after)).mapError ParseError.cause := by
  rw [Token.splits_iff] at hbefore hafter
  have hstar : Token.scanAll (before ++ "*" ++ after).toList =
      ts ++ a :: .symbol '*' :: b :: us := by
    have htext : (before ++ "*" ++ after).toList = before.toList ++ '*' :: after.toList := by simp
    rw [htext, Token.scanAll_append_symbol (by decide) (by decide), hbefore, hafter,
      List.append_assoc, List.singleton_append]
  have hblank : Token.scanAll (before ++ " " ++ after).toList = ts ++ a :: b :: us := by
    have htext : (before ++ " " ++ after).toList = before.toList ++ ' ' :: after.toList := by simp
    rw [htext, Token.scanAll_append_blank (by decide), hbefore, hafter, List.append_assoc,
      List.singleton_append]
  refine ⟨Token.splits_iff.mpr hstar, ?_⟩
  rw [parse, parse, mapError_parseChars, mapError_parseChars, hstar, hblank]
  exact mapError_expression_of_abridges
    (Abridges.append_left (.drop ha hb (abridges_refl (b :: us))) ts) maxNesting

/-- Behind an exponent, which the factor that follows does not belong to. -/
theorem parse_juxtaposed_power :
    Token.Splits "2^3*(4)".toList ([.literal ['2'] none, .symbol '^'] ++
        .literal ['3'] none :: .symbol '*' :: .symbol '(' :: [.literal ['4'] none, .symbol ')']) ∧
      (parse "2^3*(4)").mapError ParseError.cause = (parse "2^3 (4)").mapError ParseError.cause := by
  have hbefore : Token.Splits "2^3".toList
      ([.literal ['2'] none, .symbol '^'] ++ [.literal ['3'] none]) :=
    Token.splits_iff.mpr (by decide +kernel)
  have hafter : Token.Splits "(4)".toList
      (.symbol '(' :: [.literal ['4'] none, .symbol ')']) :=
    Token.splits_iff.mpr (by decide +kernel)
  exact parse_juxtaposed hbefore rfl hafter rfl

end Expr

end Calculator
