import Calculator.Proofs.Grammar.Soundness
import Calculator.Proofs.Token.Places

/-!
# Where a rule breaks off

The texts that are no expressions have derivations, too: `Breaks level ts rest cause n` says that the
tokens `ts` begin what the rule `level` derives, that the rule cannot go on at `rest`, behind them,
because of `cause`, and that at most `n` factors and exponents are open inside each other.

What has been read by then can be completed by a digit at most and by closing parentheses
(`Breaks.completes`), and for some causes the first token of `rest` settles that nothing else can be
done (`Breaks.of_resembles`).
-/

namespace Calculator.Grammar

/-- A cause that one character shows, whatever follows it. -/
def Cause.isDefinite : Cause → Bool
  | unexpectedCharacter _ | trailingInput | missingClosingParenthesis => true
  | _ => false

/-- How a rule is left at the tokens `rest`: the operands that are read by then are whole, and of
the last one nothing is read, or the beginning. -/
inductive Breaks : Level → List Token → List Token → Cause → Nat → Prop
  | obstacle {rest : List Token} {cause : Cause} : Obstacle rest cause →
    Breaks .factor [] rest cause 1
  | root {ts rest : List Token} {cause : Cause} {n : Nat} : Breaks .factor ts rest cause n →
    Breaks .factor (UnaryOp.squareRoot.token :: ts) rest cause (n + 1)
  | sign {op : UnaryOp} {ts rest : List Token} {cause : Cause} {n : Nat} : op ≠ .squareRoot →
    Breaks .power ts rest cause n → Breaks .factor (op.token :: ts) rest cause (n + 1)
  | group {ts rest : List Token} {cause : Cause} {n : Nat} : Breaks .sum ts rest cause n →
    Breaks .factor (.symbol '(' :: ts) rest cause (n + 1)
  | unclosed {ts rest : List Token} {e : Expr} {n : Nat} : Derives .sum ts e n →
    e.height ≤ maxHeight → Level.Stops .sum rest → rest.head? ≠ some (.symbol ')') →
    Breaks .factor (.symbol '(' :: ts) rest .missingClosingParenthesis (n + 1)
  | base {ts rest : List Token} {cause : Cause} {n : Nat} : Breaks .factor ts rest cause n →
    Breaks .power ts rest cause n
  | exponent {ts us rest : List Token} {e : Expr} {cause : Cause} {m n : Nat} :
    Derives .factor ts e m → e.height ≤ maxHeight → signLed ts = false →
    Breaks .power us rest cause n →
    Breaks .power (ts ++ BinaryOp.power.token :: us) rest cause (max m (n + 1))
  | ofPower {ts rest : List Token} {cause : Cause} {n : Nat} : Breaks .power ts rest cause n →
    Breaks .product ts rest cause n
  | multiplicative {op : BinaryOp} {ts us rest : List Token} {e : Expr} {cause : Cause} {m n : Nat} :
    op = .multiply ∨ op = .divide → Derives .product ts e m → e.height ≤ maxHeight →
    Breaks .power us rest cause n → Breaks .product (ts ++ op.token :: us) rest cause (max m n)
  | juxtaposed {ts us rest : List Token} {e : Expr} {t : Token} {cause : Cause} {m n : Nat} :
    Derives .product ts e m → e.height ≤ maxHeight → (us ++ rest).head? = some t → t.beginsFactor →
    Breaks .power us rest cause n → Breaks .product (ts ++ us) rest cause (max m n)
  | ofProduct {ts rest : List Token} {cause : Cause} {n : Nat} : Breaks .product ts rest cause n →
    Breaks .sum ts rest cause n
  | additive {op : BinaryOp} {ts us rest : List Token} {e : Expr} {cause : Cause} {m n : Nat} :
    op = .add ∨ op = .subtract → Derives .sum ts e m → e.height ≤ maxHeight →
    Breaks .product us rest cause n → Breaks .sum (ts ++ op.token :: us) rest cause (max m n)

variable {level : Level} {ts rest : List Token} {cause : Cause} {n : Nat}

/-! ## The first token that is left -/

/-- A sum ends before every token that is no operator and begins no factor. -/
theorem stops_sum_cons_iff {a : Token} :
    Level.Stops .sum (a :: ts) ↔ (∀ op : BinaryOp, a ≠ op.token) ∧ a.beginsFactor = false := by
  have hsum := sumOperator?_of_next? (next?_cons a ts)
  have hproduct := productOperator?_of_next? (next?_cons a ts)
  constructor
  · rintro ⟨⟨hpower, hnoproduct⟩, hnosum⟩
    rw [hsum] at hnosum
    rw [hproduct] at hnoproduct
    split_ifs at hnosum hnoproduct with hadd hsub hmul hdiv hbegins
    refine ⟨fun op => ?_, by simpa using hbegins⟩
    cases op with
    | add => exact hadd
    | subtract => exact hsub
    | multiply => exact hmul
    | divide => exact hdiv
    | power => exact fun ha => hpower (congrArg some ha)
  · rintro ⟨hop, hbegins⟩
    have hadd : a ≠ .symbol '+' := hop .add
    have hsub : a ≠ .symbol '-' := hop .subtract
    have hmul : a ≠ .symbol '*' := hop .multiply
    have hdiv : a ≠ .symbol '/' := hop .divide
    refine ⟨⟨fun hhead => hop .power (Option.some.inj hhead), ?_⟩, ?_⟩
    · rw [hproduct, if_neg hmul, if_neg hdiv, if_neg (by simp [hbegins])]
    · rw [hsum, if_neg hadd, if_neg hsub]

section Resembles

variable {a b : Token} {us : List Token}

theorem stops_sum_of_resembles (hab : a.Resembles b) (h : Level.Stops .sum (a :: ts)) :
    Level.Stops .sum (b :: us) := by
  rw [stops_sum_cons_iff] at h ⊢
  obtain ⟨hop, hbegins⟩ := h
  refine ⟨fun op hb => ?_, hab.1.symm.trans hbegins⟩
  obtain ⟨c, htoken, hc⟩ : ∃ c, op.token = .symbol c ∧ c ≠ '.' := by
    cases op <;> exact ⟨_, rfl, by decide⟩
  exact hop op (htoken ▸ (hab.2 c hc).mpr (hb.trans htoken))

theorem Obstacle.of_resembles (hcause : cause.isDefinite) (hab : a.Resembles b)
    (h : Obstacle (a :: ts) cause) : Obstacle (b :: us) cause := by
  cases h with
  | character hplus hminus hopen hpoint =>
    rw [(hab.2 _ hpoint).mp rfl]
    exact .character hplus hminus hopen hpoint
  | _ => cases hcause

/-- Another token of the same kind breaks the rule off, too, whatever follows it. -/
theorem Breaks.of_resembles {rest' : List Token} (hcause : cause.isDefinite) (hab : a.Resembles b)
    (hrest : rest = a :: rest') (h : Breaks level ts rest cause n) :
    Breaks level ts (b :: us) cause n := by
  induction h with
  | obstacle h =>
    subst hrest
    exact .obstacle (h.of_resembles hcause hab)
  | root _ ih => exact .root (ih hcause hrest)
  | sign hop _ ih => exact .sign hop (ih hcause hrest)
  | group _ ih => exact .group (ih hcause hrest)
  | unclosed hd hheight hstop hclose =>
    subst hrest
    refine .unclosed hd hheight (stops_sum_of_resembles hab hstop) fun hhead => ?_
    have hb := Option.some.inj hhead
    exact hclose (congrArg some ((hab.2 ')' (by decide)).mpr hb))
  | base _ ih => exact .base (ih hcause hrest)
  | exponent hd hheight hs _ ih => exact .exponent hd hheight hs (ih hcause hrest)
  | ofPower _ ih => exact .ofPower (ih hcause hrest)
  | multiplicative hop hd hheight _ ih => exact .multiplicative hop hd hheight (ih hcause hrest)
  | @juxtaposed ts vs rest e t cause m n hd hheight hhead hbegins _ ih =>
    -- if nothing of the operand is read, the token in question is what it begins with
    cases vs with
    | nil =>
      subst hrest
      obtain rfl := Option.some.inj hhead
      exact .juxtaposed hd hheight rfl (hab.1.symm.trans hbegins) (ih hcause rfl)
    | cons => exact .juxtaposed hd hheight hhead hbegins (ih hcause hrest)
  | ofProduct _ ih => exact .ofProduct (ih hcause hrest)
  | additive hop hd hheight _ ih => exact .additive hop hd hheight (ih hcause hrest)

end Resembles

/-! ## Completion -/

/-- A zero, if asked for, and closing parentheses. -/
def closing (digit : Bool) (k : Nat) : List Token :=
  (if digit then [.literal ['0'] none] else []) ++ List.replicate k (.symbol ')')

theorem closing_succ (digit : Bool) (k : Nat) :
    closing digit (k + 1) = closing digit k ++ [.symbol ')'] := by
  rw [closing, closing, List.replicate_succ', List.append_assoc]

/-- Whether a digit can be written behind the tokens without becoming part of the last one. -/
def AdmitsDigit (ts : List Token) : Prop := ∀ t ∈ ts.getLast?, t.continuedBy '0' = false

theorem AdmitsDigit.append_cons {us : List Token} {t : Token} (ht : t.continuedBy '0' = false)
    (h : AdmitsDigit us) (ts : List Token) : AdmitsDigit (ts ++ t :: us) := by
  intro a ha
  rw [List.getLast?_append_of_ne_nil _ (List.cons_ne_nil t us)] at ha
  cases us with
  | nil =>
    cases ha
    exact ht
  | cons u us =>
    rw [List.getLast?_cons_cons] at ha
    exact h a ha

theorem AdmitsDigit.append {us : List Token} (hne : us ≠ []) (h : AdmitsDigit us)
    (ts : List Token) : AdmitsDigit (ts ++ us) := by
  intro a ha
  rw [List.getLast?_append_of_ne_nil _ hne] at ha
  exact h a ha

theorem admitsDigit_unary (op : UnaryOp) : op.token.continuedBy '0' = false := by
  cases op <;> decide

theorem admitsDigit_binary (op : BinaryOp) : op.token.continuedBy '0' = false := by
  cases op <;> decide

/-- The tokens can be completed, within the nesting that has been reached. -/
def Completes (level : Level) (ts : List Token) (n : Nat) : Prop :=
  ∃ digit k e m, Derives level (ts ++ closing digit k) e m ∧ m ≤ n ∧ (digit → AdmitsDigit ts)

theorem completes_nil : Completes .factor [] 1 :=
  ⟨true, 0, _, 1, .literal rfl, Nat.le_refl 1, fun _ _ ht => (nomatch ht)⟩

theorem completes_of_derives {e : Expr} (h : Derives level ts e n) : Completes level ts n :=
  ⟨false, 0, e, n, by simpa [closing] using h, Nat.le_refl n, fun hdig => (nomatch hdig)⟩

theorem Completes.mono {place : Level} {m : Nat} (h : Completes level ts n)
    (hplace : level.rank ≤ place.rank) (hn : n ≤ m) : Completes place ts m := by
  obtain ⟨digit, k, e, i, hd, hi, hdigit⟩ := h
  exact ⟨digit, k, e, i, hd.raise hplace, Nat.le_trans hi hn, hdigit⟩

/-- What completes the last operand completes the whole. -/
theorem Completes.append_cons {inner : Level} {us : List Token} {t : Token} {m : Nat}
    (h : Completes inner us n) (ts : List Token) (ht : t.continuedBy '0' = false)
    (hd : ∀ {vs e k}, Derives inner vs e k → k ≤ n →
      ∃ e' k', Derives level (ts ++ t :: vs) e' k' ∧ k' ≤ m) :
    Completes level (ts ++ t :: us) m := by
  obtain ⟨digit, k, e, i, hi, hin, hdigit⟩ := h
  obtain ⟨e', k', hk, hkm⟩ := hd hi hin
  exact ⟨digit, k, e', k', by rwa [List.append_assoc], hkm,
    fun hdig => (hdigit hdig).append_cons ht ts⟩

theorem Completes.group (h : Completes .sum ts n) :
    Completes .factor (.symbol '(' :: ts) (n + 1) := by
  obtain ⟨digit, k, e, i, hi, hin, hdigit⟩ := h
  refine ⟨digit, k + 1, e, i + 1, ?_, Nat.succ_le_succ hin,
    fun hdig => (hdigit hdig).append_cons (by decide) []⟩
  rw [closing_succ, List.cons_append, ← List.append_assoc]
  exact .group hi

theorem completes_unclosed {e : Expr} (h : Derives .sum ts e n) :
    Completes .factor (.symbol '(' :: ts) (n + 1) :=
  ⟨false, 1, e, n + 1, .group h, Nat.le_refl _, fun hdig => (nomatch hdig)⟩

/-- An operand of which nothing has been read is left out. -/
theorem Completes.juxtaposed {us : List Token} {e : Expr} {t : Token} {m : Nat}
    (hl : Derives .product ts e m) (hhead : (us ++ rest).head? = some t) (ht : t.beginsFactor)
    (h : Completes .power us n) : Completes .product (ts ++ us) (max m n) := by
  by_cases hne : us = []
  · subst hne
    rw [List.append_nil]
    exact (completes_of_derives hl).mono (Nat.le_refl _) (Nat.le_max_left m n)
  · obtain ⟨digit, k, r, i, hi, hin, hdigit⟩ := h
    rw [List.head?_append_of_ne_nil _ hne] at hhead
    have hjuxtaposes : juxtaposes (us ++ closing digit k) :=
      hi.juxtaposes (by rw [List.head?_append_of_ne_nil _ hne]; exact hhead) ht
    have hd := Derives.juxtaposed hl hi hjuxtaposes
    rw [← List.append_assoc] at hd
    exact ⟨digit, k, _, max m i, hd, by omega, fun hdig => (hdigit hdig).append hne ts⟩

/-- What has been read where a rule breaks off is the beginning of what it derives. -/
theorem Breaks.completes (h : Breaks level ts rest cause n) : Completes level ts n := by
  induction h with
  | obstacle => exact completes_nil
  | root _ ih =>
    exact ih.append_cons [] (admitsDigit_unary .squareRoot)
      fun hd hk => ⟨_, _, .root hd, Nat.succ_le_succ hk⟩
  | @sign op _ _ _ _ hop _ ih =>
    exact ih.append_cons [] (admitsDigit_unary op)
      fun hd hk => ⟨_, _, .sign hop hd, Nat.succ_le_succ hk⟩
  | group _ ih => exact ih.group
  | unclosed hd => exact completes_unclosed hd
  | base _ ih | ofPower _ ih | ofProduct _ ih => exact ih.mono (by decide) (Nat.le_refl _)
  | exponent hb _ hs _ ih =>
    exact ih.append_cons _ (admitsDigit_binary .power)
      fun hd hk => ⟨_, _, .power hb hs hd, by omega⟩
  | @multiplicative op _ _ _ _ _ _ _ hop hl _ _ ih =>
    exact ih.append_cons _ (admitsDigit_binary op)
      fun hd hk => ⟨_, _, .multiplicative hop hl hd, by omega⟩
  | juxtaposed hl _ hhead ht _ ih => exact .juxtaposed hl hhead ht ih
  | @additive op _ _ _ _ _ _ _ hop hl _ _ ih =>
    exact ih.append_cons _ (admitsDigit_binary op)
      fun hd hk => ⟨_, _, .additive hop hl hd, by omega⟩

end Calculator.Grammar
