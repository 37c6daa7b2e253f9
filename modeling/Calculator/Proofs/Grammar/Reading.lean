import Calculator.Proofs.Grammar.Derivation
import Calculator.Proofs.Grammar.Simulation

/-!
# Reading derived tokens

A rule that is given tokens it derives, and behind them tokens that do not continue them
(`Level.Stops`), reads exactly the derived ones (`Derives.reads`).  Within the bounds on height and
nesting the answer is the tree; beyond them it is a refusal for nesting, and no other.

The operands of a sum or a product are read by a loop, while derivations group them from the left.
What carries the induction is therefore not that a sum is read, but that reading gets as far as the
loop with the derived sum in hand (`Readable`).
-/

namespace Calculator.Grammar

open TokenSource (next? settle)

@[simp] theorem next?_nil : next? ([] : List Token) = none := rfl

@[simp] theorem next?_cons (t : Token) (ts : List Token) : next? (t :: ts) = some (t, ts) := rfl

@[simp] theorem settle_tokens (ts : List Token) : settle ts = ts := rfl

/-! ## Answers within bounds -/

section Answers

variable {α β σ : Type} {P Q : Prop}

/-- Under the condition the answer is the expected one, otherwise it is a refusal for nesting. -/
def Answers (P : Prop) (answer expected : Except (Failure σ) α) : Prop :=
  (P → answer = expected) ∧ (¬ P → ∃ place, answer = .error ⟨.nestingTooDeep, place⟩)

theorem Answers.congr {a x : Except (Failure σ) α} (h : Answers P a x) (hpq : P ↔ Q) :
    Answers Q a x :=
  ⟨fun hq => h.1 (hpq.mpr hq), fun hq => h.2 fun hp => hq (hpq.mp hp)⟩

theorem Answers.refused {x : Except (Failure σ) α} {place : σ} (h : ¬ P) :
    Answers P (.error ⟨.nestingTooDeep, place⟩) x :=
  ⟨fun hp => absurd hp h, fun _ => ⟨place, rfl⟩⟩

theorem Answers.bind {a : Except (Failure σ) α} {x : α} {f : α → Except (Failure σ) β}
    {y : Except (Failure σ) β} (ha : Answers P a (.ok x)) (hf : Answers Q (f x) y) :
    Answers (P ∧ Q) (a >>= f) y := by
  by_cases hp : P
  · rw [ha.1 hp]
    exact Answers.congr hf (by simp [hp])
  · obtain ⟨place, h⟩ := ha.2 hp
    rw [h]
    exact .refused fun hpq => hp hpq.1

theorem Answers.followed {a : Except (Failure σ) α} {x : α} {f : α → Except (Failure σ) β}
    {y : Except (Failure σ) β} (ha : Answers P a (.ok x)) (hf : f x = y) :
    Answers P (a >>= f) y := by
  refine (ha.bind (Q := True) ⟨fun _ => hf, fun h => absurd trivial h⟩).congr ?_
  exact iff_of_eq (and_true P)

theorem Answers.wrap (op : UnaryOp) (e : Expr) (rest : σ) :
    Answers (e.height < maxHeight) (Parsed.wrap op ⟨e, e.height, rest⟩)
      (.ok ⟨.unary op e, e.height + 1, rest⟩) := by
  unfold Parsed.wrap
  split
  next h => exact ⟨fun _ => rfl, fun hn => absurd h hn⟩
  next h => exact .refused h

theorem Answers.join (op : BinaryOp) (l r : Expr) (s rest : σ) :
    Answers (max l.height r.height < maxHeight)
      (Parsed.join op ⟨l, l.height, s⟩ ⟨r, r.height, rest⟩)
      (.ok ⟨.binary op l r, max l.height r.height + 1, rest⟩) := by
  unfold Parsed.join
  split
  next h => exact ⟨fun _ => rfl, fun hn => absurd h hn⟩
  next h => exact .refused h

/-- One more operand takes the loop one round further. -/
theorem Answers.chain [TokenSource σ] {operator? : σ → Option (BinaryOp × σ)} {operand : Rule σ}
    {answer : Except (Failure σ) (Parsed σ)} {op : BinaryOp} {l r : Expr} {s s' rest : σ}
    (hl : Answers P answer (chain operator? operand ⟨l, l.height, s⟩))
    (hop : operator? s = some (op, s'))
    (hr : Answers Q (operand s') (.ok ⟨r, r.height, rest⟩)) :
    Answers (P ∧ Q ∧ max l.height r.height < maxHeight) answer
      (chain operator? operand ⟨.binary op l r, max l.height r.height + 1, rest⟩) := by
  by_cases hp : P
  · rw [hl.1 hp, Grammar.chain]
    simp only [hop]
    by_cases hq : Q
    · rw [hr.1 hq]
      by_cases hh : max l.height r.height < maxHeight
      · exact ⟨fun _ => if_pos hh, fun hn => absurd ⟨hp, hq, hh⟩ hn⟩
      · simp only [if_neg hh]
        exact .refused fun h => hh h.2.2
    · obtain ⟨place, h⟩ := hr.2 hq
      rw [h]
      exact .refused fun h => hq h.2.1
  · obtain ⟨place, h⟩ := hl.2 hp
    rw [h]
    exact .refused fun h => hp h.1

end Answers

/-! ## Where a rule stops -/

/-- What the rule does not read on at. -/
def Level.Stops : Level → List Token → Prop
  | .factor, _ => True
  | .power, rest => rest.head? ≠ some BinaryOp.power.token
  | .product, rest => rest.head? ≠ some BinaryOp.power.token ∧ productOperator? rest = none
  | .sum, rest => (rest.head? ≠ some BinaryOp.power.token ∧ productOperator? rest = none) ∧
      sumOperator? rest = none

theorem chain_stop {operator? : List Token → Option (BinaryOp × List Token)}
    {operand : Rule (List Token)} {p : Parsed (List Token)} (h : operator? p.rest = none) :
    chain operator? operand p = .ok p := by
  rw [chain]
  simp only [h]
  rfl

theorem productOperator?_token {op : BinaryOp} (hop : op = .multiply ∨ op = .divide)
    (ts : List Token) : productOperator? (op.token :: ts) = some (op, ts) := by
  rcases hop with rfl | rfl <;> rfl

theorem sumOperator?_token {op : BinaryOp} (hop : op = .add ∨ op = .subtract)
    (ts : List Token) : sumOperator? (op.token :: ts) = some (op, ts) := by
  rcases hop with rfl | rfl <;> rfl

/-- A sum goes on where no product does. -/
theorem stops_product_token {op : BinaryOp} (hop : op = .add ∨ op = .subtract)
    (ts : List Token) : Level.Stops .product (op.token :: ts) := by
  rcases hop with rfl | rfl <;> exact ⟨by simp [BinaryOp.token], rfl⟩

theorem stops_power_token {op : BinaryOp} (hop : op = .multiply ∨ op = .divide)
    (ts : List Token) : Level.Stops .power (op.token :: ts) := by
  rcases hop with rfl | rfl <;> (show some _ ≠ some _; decide)

theorem productOperator?_of_beginsFactor {ts : List Token} {t : Token}
    (hhead : ts.head? = some t) (ht : t.beginsFactor) : productOperator? ts = some (.multiply, ts) := by
  obtain ⟨us, rfl⟩ := List.head?_eq_some_iff.mp hhead
  have hmul : t ≠ .symbol '*' := by rintro rfl; exact absurd ht (by decide)
  have hdiv : t ≠ .symbol '/' := by rintro rfl; exact absurd ht (by decide)
  rw [productOperator?_of_next? (next?_cons t us), if_neg hmul, if_neg hdiv, if_pos ht,
    settle_tokens]

theorem productOperator?_of_juxtaposes {us : List Token} (h : juxtaposes us) (rest : List Token) :
    productOperator? (us ++ rest) = some (.multiply, us ++ rest) := by
  unfold juxtaposes at h
  split at h
  · simp_all [productOperator?, Token.beginsFactor]
  · rw [Bool.or_eq_true, beq_iff_eq, beq_iff_eq] at h
    rcases h with rfl | rfl <;> rfl
  · cases h

theorem stops_power_of_juxtaposes {us : List Token} (h : juxtaposes us) (rest : List Token) :
    Level.Stops .power (us ++ rest) := by
  unfold juxtaposes at h
  split at h
  · simp [Level.Stops, BinaryOp.token]
  · rw [Bool.or_eq_true, beq_iff_eq, beq_iff_eq] at h
    rcases h with rfl | rfl <;> simp [Level.Stops, BinaryOp.token, UnaryOp.token]
  · cases h

theorem stops_sum_group (rest : List Token) : Level.Stops .sum (.symbol ')' :: rest) :=
  ⟨⟨by simp [BinaryOp.token], rfl⟩, rfl⟩

theorem stops_sum_nil : Level.Stops .sum [] := ⟨⟨by simp, rfl⟩, rfl⟩

/-! ## The rules at a first token -/

theorem factor_literal (room : Nat) (whole : List Char) (fraction : Option (List Char))
    (ts : List Token) : factor (room + 1) (.literal whole fraction :: ts) =
      leaf (.literal whole fraction :: ts) ts (.literal whole fraction)
        (Decimal.ofDigits? whole (fraction.getD [])) := rfl

theorem factor_root (room : Nat) (ts : List Token) :
    factor (room + 1) (UnaryOp.squareRoot.token :: ts) =
      factor room ts >>= Parsed.wrap .squareRoot := by
  show factorStep (factor room) (power room) (.word Token.squareRoot :: ts) = _
  simp only [factorStep, next?_cons, if_true]

theorem factor_sign {op : UnaryOp} (hop : op ≠ .squareRoot) (room : Nat) (ts : List Token) :
    factor (room + 1) (op.token :: ts) = power room ts >>= Parsed.wrap op := by
  cases op with
  | squareRoot => exact absurd rfl hop
  | _ => rfl

theorem factor_group (room : Nat) (ts : List Token) :
    factor (room + 1) (.symbol '(' :: ts) = group (power room) ts := rfl

/-- Why no factor begins with the tokens. -/
inductive Obstacle : List Token → Cause → Prop
  | ending : Obstacle [] .unexpectedEnd
  | number {whole : List Char} {fraction : Option (List Char)} {ts : List Token} :
    Decimal.ofDigits? whole (fraction.getD []) = none → Obstacle (.literal whole fraction :: ts)
      (.invalidNumber (String.ofList (Token.literal whole fraction).text))
  | identifier {letters : List Char} {ts : List Token} : letters ≠ Token.squareRoot →
    Obstacle (.word letters :: ts) (.unknownIdentifier (String.ofList letters))
  | point {ts : List Token} : Obstacle (.symbol '.' :: ts) .expectedNumber
  | character {c : Char} {ts : List Token} : c ≠ '+' → c ≠ '-' → c ≠ '(' → c ≠ '.' →
    Obstacle (.symbol c :: ts) (.unexpectedCharacter c)

theorem factor_obstacle {ts : List Token} {cause : Cause} (h : Obstacle ts cause) (room : Nat) :
    factor (room + 1) ts = .error ⟨cause, ts⟩ := by
  cases h with
  | ending => rfl
  | number hvalue =>
    rw [factor_literal, hvalue]
    rfl
  | @identifier letters us hletters =>
    show factorStep (factor room) (power room) (.word letters :: us) = _
    simp only [factorStep, next?_cons, if_neg hletters, settle_tokens]
  | point => rfl
  | character hplus hminus hopen hpoint =>
    exact factorStep_symbol (next?_cons _ _) hplus hminus hopen hpoint

/-- All the ways in which tokens can begin. -/
theorem start_cases (ts : List Token) : (∃ cause, Obstacle ts cause) ∨
    (∃ whole fraction value us, ts = .literal whole fraction :: us ∧
      Decimal.ofDigits? whole (fraction.getD []) = some value) ∨
    (∃ us, ts = UnaryOp.squareRoot.token :: us) ∨
    (∃ op us, op ≠ UnaryOp.squareRoot ∧ ts = op.token :: us) ∨
    ∃ us, ts = .symbol '(' :: us := by
  match ts with
  | [] => exact .inl ⟨_, .ending⟩
  | .literal whole fraction :: us =>
    cases hvalue : Decimal.ofDigits? whole (fraction.getD []) with
    | none => exact .inl ⟨_, .number hvalue⟩
    | some value => exact .inr (.inl ⟨whole, fraction, value, us, rfl, hvalue⟩)
  | .word letters :: us =>
    by_cases hletters : letters = Token.squareRoot
    · subst hletters
      exact .inr (.inr (.inl ⟨us, rfl⟩))
    · exact .inl ⟨_, .identifier hletters⟩
  | .symbol c :: us =>
    by_cases hplus : c = '+'
    · subst hplus
      exact .inr (.inr (.inr (.inl ⟨.plus, us, by decide, rfl⟩)))
    by_cases hminus : c = '-'
    · subst hminus
      exact .inr (.inr (.inr (.inl ⟨.minus, us, by decide, rfl⟩)))
    by_cases hopen : c = '('
    · subst hopen
      exact .inr (.inr (.inr (.inr ⟨us, rfl⟩)))
    by_cases hpoint : c = '.'
    · subst hpoint
      exact .inl ⟨_, .point⟩
    · exact .inl ⟨_, .character hplus hminus hopen hpoint⟩

theorem power_succ (room : Nat) (ts : List Token) :
    power (room + 1) ts = powerStep (factor (room + 1)) (power room) ts := rfl

theorem powerStep_stop {factor power : Rule (List Token)} {ts : List Token}
    {p : Parsed (List Token)} (h : factor ts = .ok p) (hp : Level.Stops .power p.rest) :
    powerStep factor power ts = .ok p := by
  simp only [powerStep, h, bind, Except.bind]
  split
  next heq =>
    cases hr : p.rest with
    | nil => rw [hr] at heq; cases heq
    | cons t us =>
      rw [hr] at heq hp
      cases heq
      exact absurd rfl hp
  next => rfl

theorem powerStep_power {factor power : Rule (List Token)} {ts us : List Token}
    {p : Parsed (List Token)} (h : factor ts = .ok p) (hp : p.rest = BinaryOp.power.token :: us) :
    powerStep factor power ts = power us >>= Parsed.join .power p := by
  obtain ⟨e, height, rest⟩ := p
  obtain rfl : rest = _ := hp
  rw [powerStep, h]
  rfl

theorem powerStep_error {factor power : Rule (List Token)} {ts : List Token}
    {f : Failure (List Token)} (h : factor ts = .error f) :
    powerStep factor power ts = .error f := by
  simp only [powerStep, h]
  rfl

/-! ## Derived tokens are read -/

/-- What is asked of the tree and the nesting when `room` factors may still be opened. -/
def Within (e : Expr) (n room : Nat) : Prop := e.height ≤ maxHeight ∧ n ≤ room

/-- What the rules answer to tokens that a level derives. -/
def Readable (ts : List Token) (e : Expr) (n : Nat) : Level → Prop
  | .factor => ∀ room rest, (signLed ts → Level.Stops .power rest) →
    Answers (Within e n room) (factor room (ts ++ rest)) (.ok ⟨e, e.height, rest⟩)
  | .power => ∀ room rest, Level.Stops .power rest →
    Answers (Within e n room) (power room (ts ++ rest)) (.ok ⟨e, e.height, rest⟩)
  | .product => ∀ room rest, Level.Stops .power rest →
    Answers (Within e n room) (product (power room) (ts ++ rest))
      (chain productOperator? (power room) ⟨e, e.height, rest⟩)
  | .sum => ∀ room rest, Level.Stops .product rest →
    Answers (Within e n room) (sum (power room) (ts ++ rest))
      (chain sumOperator? (product (power room)) ⟨e, e.height, rest⟩)

section Readable

variable {ts us : List Token} {b e l r : Expr} {m n : Nat}

/-- A factor that is opened takes one of the room. -/
theorem Readable.of_succ (h : ∀ room rest, (signLed ts → Level.Stops .power rest) →
      Answers (Within e n room) (factor (room + 1) (ts ++ rest)) (.ok ⟨e, e.height, rest⟩)) :
    Readable ts e (n + 1) .factor := by
  intro room rest hrest
  cases room with
  | zero => exact .refused fun h => absurd h.2 (by omega)
  | succ room =>
    refine (h room rest hrest).congr ?_
    unfold Within
    omega

theorem Readable.literal {whole : List Char} {fraction : Option (List Char)} {value : Decimal}
    (h : Decimal.ofDigits? whole (fraction.getD []) = some value) :
    Readable [.literal whole fraction] (.number value) 1 .factor := by
  refine .of_succ fun room rest _ => ?_
  rw [List.singleton_append, factor_literal, h]
  exact ⟨fun _ => rfl, fun hn => absurd ⟨Nat.zero_le _, Nat.zero_le _⟩ hn⟩

theorem Readable.root (h : Readable ts e n .factor) :
    Readable (UnaryOp.squareRoot.token :: ts) (.unary .squareRoot e) (n + 1) .factor := by
  refine .of_succ fun room rest hrest => ?_
  rw [signLed_root] at hrest
  rw [List.cons_append, factor_root]
  refine ((h room rest hrest).bind (Answers.wrap _ e rest)).congr ?_
  simp only [Within, Expr.height]
  omega

theorem Readable.sign {op : UnaryOp} (hop : op ≠ .squareRoot) (h : Readable ts e n .power) :
    Readable (op.token :: ts) (.unary op e) (n + 1) .factor := by
  refine .of_succ fun room rest hrest => ?_
  rw [List.cons_append, factor_sign hop]
  refine ((h room rest (hrest (signLed_sign hop ts))).bind (Answers.wrap op e rest)).congr ?_
  simp only [Within, Expr.height]
  omega

theorem Readable.sum_ok {room : Nat} {rest : List Token} (h : Readable ts e n .sum)
    (hrest : Level.Stops .sum rest) : Answers (Within e n room) (sum (power room) (ts ++ rest))
      (.ok ⟨e, e.height, rest⟩) := by
  have := h room rest hrest.1
  rwa [chain_stop hrest.2] at this

theorem Readable.product_ok {room : Nat} {rest : List Token} (h : Readable ts e n .product)
    (hrest : Level.Stops .product rest) :
    Answers (Within e n room) (product (power room) (ts ++ rest)) (.ok ⟨e, e.height, rest⟩) := by
  have := h room rest hrest.1
  rwa [chain_stop hrest.2] at this

theorem Readable.group (h : Readable ts e n .sum) :
    Readable (.symbol '(' :: (ts ++ [.symbol ')'])) e (n + 1) .factor := by
  refine .of_succ fun room rest _ => ?_
  rw [List.cons_append, factor_group, List.append_assoc]
  exact (h.sum_ok (stops_sum_group rest)).followed rfl

theorem Readable.base (hn : 0 < n) (h : Readable ts e n .factor) : Readable ts e n .power := by
  intro room rest hrest
  cases room with
  | zero => exact .refused fun h => absurd h.2 (by omega)
  | succ room =>
    obtain ⟨hok, herr⟩ := h (room + 1) rest fun _ => hrest
    refine ⟨fun hw => powerStep_stop (hok hw) hrest, fun hw => ?_⟩
    obtain ⟨place, hplace⟩ := herr hw
    exact ⟨place, powerStep_error hplace⟩

theorem Readable.power (hm : 0 < m) (hb : Readable ts b m .factor) (hs : signLed ts = false)
    (he : Readable us e n .power) :
    Readable (ts ++ BinaryOp.power.token :: us) (.binary .power b e) (max m (n + 1)) .power := by
  intro room rest hrest
  cases room with
  | zero => exact .refused fun h => absurd h.2 (by omega)
  | succ room =>
    rw [List.append_assoc, List.cons_append, power_succ]
    have hbase := hb (room + 1) (BinaryOp.power.token :: (us ++ rest)) (by simp [hs])
    have hjoin := (he room rest hrest).bind
      (Answers.join .power b e (BinaryOp.power.token :: (us ++ rest)) rest)
    exact (hbase.bind hjoin).congr (by simp only [Within, Expr.height]; omega)

theorem Readable.ofPower (h : Readable ts e n .power) : Readable ts e n .product :=
  fun room rest hrest => (h room rest hrest).followed rfl

theorem within_binary_iff {op : BinaryOp} {room : Nat} :
    Within l m room ∧ Within r n room ∧ max l.height r.height < maxHeight ↔
      Within (.binary op l r) (max m n) room := by
  simp only [Within, Expr.height]
  omega

theorem Readable.multiplicative {op : BinaryOp} (hop : op = .multiply ∨ op = .divide)
    (hl : Readable ts l m .product) (hr : Readable us r n .power) :
    Readable (ts ++ op.token :: us) (.binary op l r) (max m n) .product := by
  intro room rest hrest
  rw [List.append_assoc, List.cons_append]
  exact ((hl room _ (stops_power_token hop _)).chain (productOperator?_token hop _)
    (hr room rest hrest)).congr within_binary_iff

theorem Readable.juxtaposed (hl : Readable ts l m .product) (hr : Readable us r n .power)
    (hus : juxtaposes us) : Readable (ts ++ us) (.binary .multiply l r) (max m n) .product := by
  intro room rest hrest
  rw [List.append_assoc]
  exact ((hl room _ (stops_power_of_juxtaposes hus rest)).chain
    (productOperator?_of_juxtaposes hus rest) (hr room rest hrest)).congr within_binary_iff

theorem Readable.ofProduct (h : Readable ts e n .product) : Readable ts e n .sum :=
  fun _ _ hrest => (h.product_ok hrest).followed rfl

theorem Readable.additive {op : BinaryOp} (hop : op = .add ∨ op = .subtract)
    (hl : Readable ts l m .sum) (hr : Readable us r n .product) :
    Readable (ts ++ op.token :: us) (.binary op l r) (max m n) .sum := by
  intro room rest hrest
  rw [List.append_assoc, List.cons_append]
  exact ((hl room _ (stops_product_token hop _)).chain (sumOperator?_token hop _)
    (hr.product_ok hrest)).congr within_binary_iff

end Readable

theorem Derives.readable {level : Level} {ts : List Token} {e : Expr} {n : Nat}
    (h : Derives level ts e n) : Readable ts e n level := by
  induction h with
  | literal h => exact .literal h
  | root _ ih => exact ih.root
  | sign hop _ ih => exact ih.sign hop
  | group _ ih => exact ih.group
  | base h ih => exact ih.base h.nesting_pos
  | power h hs _ ihb ihe => exact ihb.power h.nesting_pos hs ihe
  | ofPower _ ih => exact ih.ofPower
  | multiplicative hop _ _ ihl ihr => exact ihl.multiplicative hop ihr
  | juxtaposed _ _ hus ihl ihr => exact ihl.juxtaposed ihr hus
  | ofProduct _ ih => exact ih.ofProduct
  | additive hop _ _ ihl ihr => exact ihl.additive hop ihr

/-- A whole text of derived tokens is read as its tree, or refused for nesting. -/
theorem Derives.expression {ts : List Token} {e : Expr} {n : Nat} (h : Derives .sum ts e n)
    (room : Nat) : Answers (Within e n room) (expression room ts) (.ok e) := by
  obtain ⟨t, us, rfl⟩ := List.exists_cons_of_ne_nil h.ne_nil
  have hsum : Answers (Within e n room) (Grammar.sum (Grammar.power room) (t :: us ++ []))
      (.ok ⟨e, e.height, []⟩) := h.readable.sum_ok stops_sum_nil
  rw [List.append_nil] at hsum
  exact hsum.followed rfl

end Calculator.Grammar
