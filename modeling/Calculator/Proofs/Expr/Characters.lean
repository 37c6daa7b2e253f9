import Calculator.Proofs.Expr.Printing
import Calculator.Proofs.Token.Breaks
import Mathlib.Data.List.Chain

/-!
# Characters of a printed text

Which characters stand side by side in a printed text (`Expr.setOff_text`): what is before an opening
and behind a closing parenthesis does not run into another token, and the only letters are those of
square roots, right before their parentheses.  So tokens stay apart also without the parentheses
between them.
-/

namespace Calculator

namespace Text

/-- Which characters stand side by side in a printed text.  Letters, in particular, are those of
square roots with their parenthesis. -/
structure Adjoins (a b : Char) : Prop where
  opening : b = '(' → a.isDigit = false ∧ a ≠ '.'
  closing : a = ')' → IsBreak b
  letter : a.isAlpha → b.isAlpha ∨ b = '('

/-- Side by side as in a printed text, and with no letter at the end. -/
structure SetOff (s : List Char) : Prop where
  chain : s.IsChain Adjoins
  last : ∀ a ∈ s.getLast?, a.isAlpha = false

variable {c : Char} {s u v : List Char}

theorem setOff_of_forall (h : ∀ c ∈ s, c ≠ '(' ∧ c ≠ ')' ∧ c.isAlpha = false) : SetOff s := by
  refine ⟨?_, fun a ha => (h a (List.mem_of_getLast? ha)).2.2⟩
  induction s with
  | nil => exact .nil
  | cons c s ih =>
    rw [List.forall_mem_cons] at h
    refine List.isChain_cons.mpr ⟨fun d hd => ⟨?_, ?_, ?_⟩, ih h.2⟩
    · exact fun hopen => absurd hopen (h.2 d (List.mem_of_head? hd)).1
    · exact fun hclose => absurd hclose h.1.2.1
    · exact fun halpha => absurd halpha (by simp [h.1.2.2])

theorem SetOff.cons (hc : IsBreak c) (hclose : c ≠ ')') (h : SetOff s) : SetOff (c :: s) := by
  refine ⟨List.isChain_cons.mpr ⟨fun d _ => ⟨fun _ => ⟨hc.1, hc.2.2⟩, ?_, ?_⟩, h.chain⟩, ?_⟩
  · exact fun h => absurd h hclose
  · exact fun halpha => absurd halpha (by simp [hc.2.1])
  · cases s with
    | nil =>
      rintro _ ⟨⟩
      exact hc.2.1
    | cons d s => exact h.last

theorem SetOff.append (hu : SetOff u) (hc : IsBreak c) (hopen : c ≠ '(') (hv : SetOff (c :: v)) :
    SetOff (u ++ c :: v) := by
  refine ⟨List.isChain_append.mpr ⟨hu.chain, hv.chain, ?_⟩, ?_⟩
  · rintro a ha _ ⟨⟩
    refine ⟨fun h => absurd h hopen, fun _ => hc, fun halpha => ?_⟩
    exact absurd halpha (by simp [hu.last a ha])
  · rw [List.getLast?_append_cons]
    exact hv.last

theorem SetOff.enclose (h : SetOff s) (parentheses : Bool) :
    SetOff (Expr.enclose parentheses s) := by
  cases parentheses with
  | false => exact h
  | true =>
    have hend : SetOff [')'] := ⟨List.isChain_singleton _, by rintro _ ⟨⟩; decide⟩
    exact (h.append (by decide) (by decide) hend).cons (by decide) (by decide)

theorem SetOff.squareRoot (h : SetOff ('(' :: s)) : SetOff (Token.squareRoot ++ '(' :: s) := by
  have hletter {a b : Char} (ha : a.isAlpha) (hb : b.isAlpha ∨ b = '(') : Adjoins a b := by
    refine ⟨fun _ => ⟨?_, ?_⟩, ?_, fun _ => hb⟩
    · exact isDigit_eq_false_of_isAlpha ha
    · rintro rfl
      exact absurd ha (by decide)
    · rintro rfl
      exact absurd ha (by decide)
  refine ⟨?_, ?_⟩
  · have hchain : (Token.squareRoot ++ ['(']).IsChain Adjoins := by
      simp only [Token.squareRoot, List.cons_append, List.nil_append, List.isChain_cons_cons,
        List.isChain_singleton, and_true]
      exact ⟨hletter (by decide) (by decide), hletter (by decide) (by decide),
        hletter (by decide) (by decide), hletter (by decide) (by decide)⟩
    exact List.isChain_split.mpr ⟨hchain, h.chain⟩
  · rw [List.getLast?_append_cons]
    exact h.last

end Text

namespace Expr

open Text (IsBreak SetOff Adjoins)

variable {e : Expr}

theorem setOff_number (value : Decimal) : SetOff (number value).text := by
  have hdigits : SetOff value.toMagnitude.text := by
    refine Text.setOff_of_forall fun c hc => ?_
    rw [← value.literal_text] at hc
    have hdigit := value.literal_lexeme.isDigit_or_point c hc
    refine ⟨?_, ?_, value.literal_lexeme.isAlpha_eq_false c hc⟩
    · rintro rfl
      exact absurd hdigit (by decide)
    · rintro rfl
      exact absurd hdigit (by decide)
  show SetOff value.text
  rw [Decimal.text]
  split
  · exact hdigits.cons (by decide) (by decide)
  · exact hdigits

theorem setOff_binary (op : BinaryOp) {u v : List Char} (hu : SetOff u) (hv : SetOff v) :
    SetOff (u ++ op.spaced ++ v) := by
  rw [List.append_assoc]
  by_cases hop : op = .power
  · subst hop
    exact hu.append (by decide) (by decide) (hv.cons (by decide) (by decide))
  · have hoperator : SetOff (op.token.text ++ ' ' :: v) := by
      cases op <;> exact (hv.cons (by decide) (by decide)).cons (by decide) (by decide)
    rw [spaced_of_ne_power hop, List.append_assoc, List.cons_append]
    exact hu.append (by decide) (by decide) (hoperator.cons (by decide) (by decide))

theorem setOff_text (e : Expr) : SetOff e.text := by
  induction e with
  | number value => exact setOff_number value
  | unary op e ih =>
    have henclosed := ih.enclose (isEnclosedUnder op e)
    rw [text_unary]
    cases op with
    | squareRoot => exact henclosed.squareRoot
    | plus | minus => exact henclosed.cons (by decide) (by decide)
  | binary op l r ihl ihr => exact setOff_binary op (ihl.enclose _) (ihr.enclose _)

theorem mem_encloseTokens {t : Token} {parentheses : Bool} {ts : List Token}
    (h : t ∈ encloseTokens parentheses ts) :
    t = .symbol '(' ∨ t = .symbol ')' ∨ t ∈ ts := by
  cases parentheses with
  | false => exact .inr (.inr h)
  | true =>
    rcases List.mem_cons.mp h with rfl | h
    · exact .inl rfl
    rcases List.mem_append.mp h with h | h
    · exact .inr (.inr h)
    · exact .inr (.inl (List.mem_singleton.mp h))

theorem isAlpha_eq_false_of_symbol {c : Char} (hc : c.isAlpha = false) :
    ∀ d ∈ (Token.symbol c).text, d.isAlpha = false := by
  intro d hd
  rw [List.mem_singleton.mp hd]
  exact hc

/-- The square root is the one token of a printed text that has letters. -/
theorem isAlpha_eq_false_of_mem_tokens {t : Token} (h : t ∈ e.tokens)
    (ht : t ≠ UnaryOp.squareRoot.token) : ∀ c ∈ t.text, c.isAlpha = false := by
  have henclosed {parentheses : Bool} {ts : List Token} (h : t ∈ encloseTokens parentheses ts)
      (ih : t ∈ ts → ∀ c ∈ t.text, c.isAlpha = false) : ∀ c ∈ t.text, c.isAlpha = false := by
    rcases mem_encloseTokens h with rfl | rfl | h
    · exact isAlpha_eq_false_of_symbol (by decide)
    · exact isAlpha_eq_false_of_symbol (by decide)
    · exact ih h
  induction e with
  | number value =>
    rw [tokens] at h
    split at h
    · rcases List.mem_pair.mp h with rfl | rfl
      · exact isAlpha_eq_false_of_symbol (by decide)
      · exact value.literal_lexeme.isAlpha_eq_false
    · rw [List.mem_singleton.mp h]
      exact value.literal_lexeme.isAlpha_eq_false
  | unary op e ih =>
    rcases List.mem_cons.mp h with rfl | h
    · cases op with
      | squareRoot => exact absurd rfl ht
      | plus | minus => exact isAlpha_eq_false_of_symbol (by decide)
    · exact henclosed h ih
  | binary op l r ihl ihr =>
    rcases List.mem_append.mp h with h | h
    · exact henclosed h ihl
    rcases List.mem_cons.mp h with rfl | h
    · cases op <;> exact isAlpha_eq_false_of_symbol (by decide)
    · exact henclosed h ihr

variable {u v : List Char}

/-- A text up to a parenthesis does not end in a square root, unless its letters stand right before
the parenthesis. -/
theorem getLast?_scanAll_ne (h : e.text = u ++ '(' :: v) (hroot : ¬ Token.squareRoot <:+ u) :
    (Token.scanAll u).getLast? ≠ some UnaryOp.squareRoot.token := by
  intro hlast
  obtain ⟨-, w, b, rfl, hb⟩ := (Token.splits_scanAll u).exists_of_last hlast
  cases b with
  | nil => exact hroot ⟨w, by rw [List.append_nil]; rfl⟩
  | cons c b =>
    have hsplit : e.text = (w ++ ['s', 'q', 'r']) ++ 't' :: c :: (b ++ '(' :: v) := by
      rw [h]
      simp [UnaryOp.token, Token.text, Token.squareRoot]
    have hchain := e.setOff_text.chain
    rw [hsplit, List.isChain_append_cons_cons] at hchain
    have hblank := hb c List.mem_cons_self
    rcases hchain.2.1.letter (by decide) with halpha | rfl
    · rw [Text.isBlank_eq_false_of_isAlpha halpha] at hblank
      cases hblank
    · exact absurd hblank (by decide)

theorem isBreak_of_getLast? (h : e.text = u ++ '(' :: v) (hroot : ¬ Token.squareRoot <:+ u) :
    ∀ a ∈ u.getLast?, IsBreak a := by
  intro a ha
  have hchain := e.setOff_text.chain
  rw [h, List.isChain_append] at hchain
  obtain ⟨hdigit, hpoint⟩ := (hchain.2.2 a ha '(' rfl).opening rfl
  refine ⟨hdigit, ?_, hpoint⟩
  rw [Bool.eq_false_iff]
  intro halpha
  obtain ⟨t, ht, hat⟩ :=
    (Token.splits_scanAll u).exists_mem_of_last ha (Text.isBlank_eq_false_of_isAlpha halpha)
  have hmem : t ∈ e.tokens := by
    rw [← scanAll_text, h, Token.scanAll_append_symbol (by decide) (by decide)]
    exact List.mem_append_left _ (List.mem_of_getLast? ht)
  have htoken : t ≠ UnaryOp.squareRoot.token := by
    rintro rfl
    exact getLast?_scanAll_ne h hroot ht
  rw [isAlpha_eq_false_of_mem_tokens hmem htoken a hat] at halpha
  cases halpha

theorem isBreak_of_head? (h : e.text = u ++ ')' :: v) : ∀ c ∈ v.head?, IsBreak c := by
  intro c hc
  have hchain := e.setOff_text.chain
  rw [h, List.isChain_append, List.isChain_cons] at hchain
  exact (hchain.2.1.1 c hc).closing rfl

end Expr

end Calculator
