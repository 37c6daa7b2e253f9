import Calculator.Grammar.Rules
import Mathlib.Tactic.SplitIfs

/-!
# Sources that look alike

The rules see a source through its next token and by settling, and in no other way.  So if a
relation between the places of two sources keeps both (`Simulates`), then rules at related places
give the same answer: the same tree, or the same cause of failure, and again at related places
(`agree_expression`).

A rule that stops behind an operand has seen no more of what follows than whether it goes on.  So
there two sources may differ in how they write a product (`Matches`), and all rules still agree
(`agree_factor_power`).

A failure for nesting is where the rule began or ended; every other failure is at a settled place.
-/

namespace Calculator

/-- Whether a factor may end with this token. -/
def Token.endsFactor : Token → Bool
  | literal _ _ => true
  | word _ => false
  | symbol c => c == ')'

namespace Grammar

open TokenSource (next? settle)

variable {σ τ : Type} [TokenSource σ] [TokenSource τ]

/-- Related places have the same next token, and related places behind it. -/
structure Simulates (R : σ → τ → Prop) : Prop where
  settle : ∀ {s : σ} {t : τ}, R s t → R (settle s) (settle t)
  next?_none : ∀ {s : σ} {t : τ}, R s t → next? s = none → next? t = none
  next?_some : ∀ {s s' : σ} {t : τ} {a : Token}, R s t → next? s = some (a, s') →
    ∃ t', next? t = some (a, t') ∧ R s' t'

/-- Both places are before a product of the same kind, with related places at its second operand. -/
def SameProduct (R : σ → τ → Prop) (s : σ) (t : τ) : Prop :=
  ∃ op s' t', productOperator? s = some (op, s') ∧ productOperator? t = some (op, t') ∧ R s' t'

/-- Places where an operand begins are related by `R`, and places where one ends by `S`. -/
structure Matches (R S : σ → τ → Prop) : Prop where
  settle_behind : ∀ {s : σ} {t : τ}, S s t → S (settle s) (settle t)
  settle : ∀ {s : σ} {t : τ}, R s t → R (settle s) (settle t)
  behind : ∀ {s : σ} {t : τ}, R s t → S s t
  next?_none : ∀ {s : σ} {t : τ}, R s t → next? s = none → next? t = none
  next?_some : ∀ {s s' : σ} {t : τ} {a : Token}, R s t → next? s = some (a, s') →
    ∃ t', next? t = some (a, t') ∧ S s' t' ∧ (a.endsFactor = false → R s' t')
  product : ∀ {s : σ} {t : τ}, S s t → R s t ∨ SameProduct R s t

/-- Two answers are the same, but for the places, which are related. -/
inductive Agree {α β : Type} (R : σ → τ → Prop) (Q : α → β → Prop) :
    Except (Failure σ) α → Except (Failure τ) β → Prop
  | read {x : α} {y : β} : Q x y → Agree R Q (.ok x) (.ok y)
  | deep {s : σ} {t : τ} : R s t →
    Agree R Q (.error ⟨.nestingTooDeep, s⟩) (.error ⟨.nestingTooDeep, t⟩)
  | stuck {cause : Cause} {s : σ} {t : τ} : R s t →
    Agree R Q (.error ⟨cause, settle s⟩) (.error ⟨cause, settle t⟩)

/-- The same tree has been read, up to related places. -/
structure Alike (R : σ → τ → Prop) (p : Parsed σ) (q : Parsed τ) : Prop where
  tree : p.tree = q.tree
  height : p.height = q.height
  rest : R p.rest q.rest

/-- Rules that agree at related places. -/
def RulesAgree (R S : σ → τ → Prop) (f : Rule σ) (g : Rule τ) : Prop :=
  ∀ s t, R s t → Agree S (Alike S) (f s) (g t)

/-- The same operator is found at related places. -/
def OperatorsAgree (R S : σ → τ → Prop) (f : σ → Option (BinaryOp × σ))
    (g : τ → Option (BinaryOp × τ)) : Prop :=
  ∀ {s : σ} {t : τ}, S s t → (f s = none ∧ g t = none) ∨
    ∃ op s' t', f s = some (op, s') ∧ g t = some (op, t') ∧ R s' t'

variable {R S : σ → τ → Prop}

/-- One relation for all places is a special case. -/
theorem Simulates.matches (h : Simulates R) : Matches R R where
  settle := h.settle
  settle_behind := h.settle
  behind := id
  next?_none := h.next?_none
  next?_some := by
    intro s s' t a hst hs
    obtain ⟨t', ht, hst'⟩ := h.next?_some hst hs
    exact ⟨t', ht, hst', fun _ => hst'⟩
  product := .inl

theorem Agree.bind {α β α' β' : Type} {Q : α → β → Prop} {Q' : α' → β' → Prop}
    {a : Except (Failure σ) α} {b : Except (Failure τ) β} {f : α → Except (Failure σ) α'}
    {g : β → Except (Failure τ) β'} (h : Agree R Q a b)
    (hfg : ∀ x y, Q x y → Agree R Q' (f x) (g y)) : Agree R Q' (a >>= f) (b >>= g) := by
  cases h with
  | read hxy => exact hfg _ _ hxy
  | deep hst => exact .deep hst
  | stuck hst => exact .stuck hst

theorem Agree.eq_ok_iff {α : Type} {a : Except (Failure σ) α} {b : Except (Failure τ) α}
    (h : Agree R Eq a b) {x : α} : a = .ok x ↔ b = .ok x := by
  cases h with
  | read hxy => subst hxy; simp
  | deep | stuck => exact ⟨fun h => (nomatch h), fun h => (nomatch h)⟩

theorem Agree.refused_iff {α β : Type} {Q : α → β → Prop} {a : Except (Failure σ) α}
    {b : Except (Failure τ) β} (h : Agree R Q a b) {cause : Cause} :
    (∃ s, a = .error ⟨cause, s⟩) ↔ ∃ t, b = .error ⟨cause, t⟩ := by
  cases h with
  | read => simp
  | deep | stuck => simp

theorem Agree.mapError_cause {α : Type} {a : Except (Failure σ) α} {b : Except (Failure τ) α}
    (h : Agree R Eq a b) : a.mapError Failure.cause = b.mapError Failure.cause := by
  cases h with
  | read hxy => rw [hxy]; rfl
  | deep | stuck => rfl

theorem agree_wrap (op : UnaryOp) {p : Parsed σ} {q : Parsed τ} (h : Alike R p q) :
    Agree R (Alike R) (p.wrap op) (q.wrap op) := by
  unfold Parsed.wrap
  rw [h.tree, h.height]
  split
  · exact .read ⟨rfl, rfl, h.rest⟩
  · exact .deep h.rest

theorem agree_join (op : BinaryOp) {p p' : Parsed σ} {q q' : Parsed τ} (h : Alike R p q)
    (h' : Alike R p' q') : Agree R (Alike R) (p.join op p') (q.join op q') := by
  unfold Parsed.join
  rw [h.tree, h.height, h'.tree, h'.height]
  split
  · exact .read ⟨rfl, rfl, h'.rest⟩
  · exact .deep h'.rest

theorem agree_leaf {start rest : σ} {start' rest' : τ} (literal : Token) (value? : Option Decimal)
    (hs : R start start') (hr : R rest rest') :
    Agree R (Alike R) (leaf start rest literal value?) (leaf start' rest' literal value?) := by
  unfold leaf
  split
  · exact .read ⟨rfl, rfl, hr⟩
  · exact .stuck hs

/-! ## Operators -/

theorem sumOperator?_of_next? {s s' : σ} {a : Token} (h : next? s = some (a, s')) :
    sumOperator? s = if a = .symbol '+' then some (.add, s')
      else if a = .symbol '-' then some (.subtract, s') else none := by
  unfold sumOperator?
  rw [h]
  split <;> simp_all

theorem productOperator?_of_next? {s s' : σ} {a : Token} (h : next? s = some (a, s')) :
    productOperator? s = if a = .symbol '*' then some (.multiply, s')
      else if a = .symbol '/' then some (.divide, s')
      else if a.beginsFactor then some (.multiply, settle s) else none := by
  unfold productOperator?
  rw [h]
  split <;> simp_all

/-- A product goes on with an operator of products, or with a token that begins a factor. -/
theorem productOperator?_cases {s s' : σ} {op : BinaryOp} (h : productOperator? s = some (op, s')) :
    ∃ a s₁, next? s = some (a, s₁) ∧ (a = .symbol '*' ∨ a = .symbol '/' ∨ a.beginsFactor) := by
  cases hs : next? s with
  | none =>
    rw [productOperator?, hs] at h
    cases h
  | some next =>
    obtain ⟨a, s₁⟩ := next
    refine ⟨a, s₁, rfl, ?_⟩
    rw [productOperator?_of_next? hs] at h
    split_ifs at h with hstar hslash hbegins
    · exact .inl hstar
    · exact .inr (.inl hslash)
    · exact .inr (.inr hbegins)

theorem sumOperator?_eq_none {s s' : σ} {op : BinaryOp} (h : productOperator? s = some (op, s')) :
    sumOperator? s = none := by
  obtain ⟨a, s₁, hs, ha⟩ := productOperator?_cases h
  rw [sumOperator?_of_next? hs, if_neg, if_neg]
  all_goals
    rintro rfl
    simp [Token.beginsFactor] at ha

theorem next?_ne_of_product {s s' : σ} {op : BinaryOp} {c : Char}
    (h : productOperator? s = some (op, s'))
    (hc : (Token.symbol c).beginsFactor = false ∧ c ≠ '*' ∧ c ≠ '/') (s₁ : σ) :
    next? s ≠ some (.symbol c, s₁) := by
  obtain ⟨a, s₂, hs, ha⟩ := productOperator?_cases h
  rw [hs, ne_eq, Option.some.injEq, Prod.mk.injEq]
  rintro ⟨rfl, -⟩
  simp [hc] at ha

theorem operatorsAgree_sum (h : Matches R S) : OperatorsAgree R S sumOperator? sumOperator? := by
  intro s t hst
  rcases h.product hst with hst | ⟨op, s', t', hs, ht, _⟩
  · cases hs : next? s with
    | none => exact .inl ⟨by rw [sumOperator?, hs], by rw [sumOperator?, h.next?_none hst hs]⟩
    | some next =>
      obtain ⟨t', ht, -, hst'⟩ := h.next?_some hst hs
      rw [sumOperator?_of_next? hs, sumOperator?_of_next? ht]
      split_ifs with hplus hminus
      · exact .inr ⟨_, _, _, rfl, rfl, hst' (by rw [hplus]; rfl)⟩
      · exact .inr ⟨_, _, _, rfl, rfl, hst' (by rw [hminus]; rfl)⟩
      · exact .inl ⟨rfl, rfl⟩
  · exact .inl ⟨sumOperator?_eq_none hs, sumOperator?_eq_none ht⟩

theorem operatorsAgree_product (h : Matches R S) :
    OperatorsAgree R S productOperator? productOperator? := by
  intro s t hst
  rcases h.product hst with hst | hproduct
  · cases hs : next? s with
    | none =>
      exact .inl ⟨by rw [productOperator?, hs], by rw [productOperator?, h.next?_none hst hs]⟩
    | some next =>
      obtain ⟨t', ht, -, hst'⟩ := h.next?_some hst hs
      rw [productOperator?_of_next? hs, productOperator?_of_next? ht]
      split_ifs with hstar hslash
      · exact .inr ⟨_, _, _, rfl, rfl, hst' (by rw [hstar]; rfl)⟩
      · exact .inr ⟨_, _, _, rfl, rfl, hst' (by rw [hslash]; rfl)⟩
      · exact .inr ⟨_, _, _, rfl, rfl, h.settle hst⟩
      · exact .inl ⟨rfl, rfl⟩
  · exact .inr hproduct

/-! ## Rules -/

theorem chain_none {operator? : σ → Option (BinaryOp × σ)} {operand : Rule σ} {left : Parsed σ}
    (h : operator? left.rest = none) :
    chain operator? operand left = .ok { left with rest := settle left.rest } := by
  rw [chain]
  simp only [h]

theorem chain_some {operator? : σ → Option (BinaryOp × σ)} {operand : Rule σ} {left : Parsed σ}
    {op : BinaryOp} {s : σ} (h : operator? left.rest = some (op, s)) :
    chain operator? operand left = operand s >>= fun right =>
      if max left.height right.height < maxHeight then
        chain operator? operand
          ⟨.binary op left.tree right.tree, max left.height right.height + 1, right.rest⟩
      else .error ⟨.nestingTooDeep, right.rest⟩ := by
  rw [chain]
  simp only [h]
  cases operand s <;> rfl

theorem agree_chain (h : Matches R S) {operator? : σ → Option (BinaryOp × σ)}
    {operator?' : τ → Option (BinaryOp × τ)} {operand : Rule σ} {operand' : Rule τ}
    (hop : OperatorsAgree R S operator? operator?') (hoperand : RulesAgree R S operand operand')
    {left : Parsed σ} {left' : Parsed τ} (hl : Alike S left left') :
    Agree S (Alike S) (chain operator? operand left) (chain operator?' operand' left') := by
  -- each round makes the tree higher, up to the bound
  induction hk : maxHeight - left.height using Nat.strongRecOn generalizing left left' with
  | ind k ih =>
    rcases hop hl.rest with ⟨hnone, hnone'⟩ | ⟨op, s, t, hs, ht, hst⟩
    · rw [chain_none hnone, chain_none hnone']
      exact .read ⟨hl.tree, hl.height, h.settle_behind hl.rest⟩
    · rw [chain_some hs, chain_some ht]
      refine (hoperand s t hst).bind fun right right' hr => ?_
      rw [← hl.tree, ← hl.height, ← hr.tree, ← hr.height]
      split
      next hlt => exact ih _ (by simp only []; omega) ⟨rfl, rfl, hr.rest⟩ rfl
      next => exact .deep hr.rest

theorem agree_product (h : Matches R S) {power : Rule σ} {power' : Rule τ}
    (hp : RulesAgree R S power power') : RulesAgree R S (product power) (product power') :=
  fun s t hst => (hp s t hst).bind fun _ _ hl => agree_chain h (operatorsAgree_product h) hp hl

theorem agree_sum (h : Matches R S) {power : Rule σ} {power' : Rule τ}
    (hp : RulesAgree R S power power') : RulesAgree R S (sum power) (sum power') :=
  fun s t hst => (agree_product h hp s t hst).bind fun _ _ hl =>
    agree_chain h (operatorsAgree_sum h) (agree_product h hp) hl

/-- What `powerStep` and `group` do behind their first part hangs on one symbol, which is none that a
product goes on with. -/
theorem agree_symbol (h : Matches R S) {c : Char}
    (hc : (Token.symbol c).beginsFactor = false ∧ c ≠ '*' ∧ c ≠ '/') {s : σ} {t : τ} (hst : S s t) :
    (∃ s' t', next? s = some (.symbol c, s') ∧ next? t = some (.symbol c, t') ∧ S s' t' ∧
        ((Token.symbol c).endsFactor = false → R s' t')) ∨
      (∀ s', next? s ≠ some (.symbol c, s')) ∧ ∀ t', next? t ≠ some (.symbol c, t') := by
  rcases h.product hst with hst | ⟨op, s', t', hs, ht, _⟩
  · cases hs : next? s with
    | none => exact .inr ⟨by simp, by simp [h.next?_none hst hs]⟩
    | some next =>
      obtain ⟨a, s'⟩ := next
      obtain ⟨t', ht, hbehind, hst'⟩ := h.next?_some hst hs
      by_cases ha : a = .symbol c
      · subst ha
        exact .inl ⟨s', t', rfl, ht, hbehind, hst'⟩
      · exact .inr ⟨by simp [ha], by simp [ht, ha]⟩
  · exact .inr ⟨next?_ne_of_product hs hc, next?_ne_of_product ht hc⟩

theorem agree_powerStep (h : Matches R S) {factor power : Rule σ} {factor' power' : Rule τ}
    (hf : RulesAgree R S factor factor') (hp : RulesAgree R S power power') :
    RulesAgree R S (powerStep factor power) (powerStep factor' power') := by
  intro s t hst
  refine (hf s t hst).bind fun b b' hb => ?_
  rcases agree_symbol h (c := '^') (by decide) hb.rest with ⟨s', t', hs, ht, -, hst'⟩ | ⟨hs, ht⟩
  · rw [hs, ht]
    exact (hp _ _ (hst' rfl)).bind fun _ _ he => agree_join .power hb he
  · split
    next heq => exact absurd heq (hs _)
    next => exact .read ⟨hb.tree, hb.height, h.settle_behind hb.rest⟩

theorem agree_group (h : Matches R S) {power : Rule σ} {power' : Rule τ}
    (hp : RulesAgree R S power power') : RulesAgree R S (group power) (group power') := by
  intro s t hst
  refine (agree_sum h hp s t hst).bind fun p p' hpp => ?_
  rcases agree_symbol h (c := ')') (by decide) hpp.rest with ⟨s', t', hs, ht, hst', -⟩ | ⟨hs, ht⟩
  · rw [hs, ht]
    exact .read ⟨hpp.tree, hpp.height, hst'⟩
  · split
    next heq => exact absurd heq (hs _)
    next => exact .stuck hpp.rest

theorem factorStep_symbol {factor power : Rule σ} {s s' : σ} {c : Char}
    (h : next? s = some (.symbol c, s')) (hplus : c ≠ '+') (hminus : c ≠ '-') (hopen : c ≠ '(')
    (hpoint : c ≠ '.') :
    factorStep factor power s = .error ⟨.unexpectedCharacter c, settle s⟩ := by
  unfold factorStep
  rw [h]
  split <;> simp_all

theorem agree_factorStep (h : Matches R S) {factor power : Rule σ} {factor' power' : Rule τ}
    (hf : RulesAgree R S factor factor') (hp : RulesAgree R S power power') :
    RulesAgree R S (factorStep factor power) (factorStep factor' power') := by
  intro s t hst
  cases hs : next? s with
  | none =>
    rw [factorStep, factorStep, hs, h.next?_none hst hs]
    exact .stuck (h.behind hst)
  | some next =>
    obtain ⟨a, s'⟩ := next
    obtain ⟨t', ht, hbehind, hst'⟩ := h.next?_some hst hs
    match a with
    | .literal whole fraction =>
      rw [factorStep, factorStep, hs, ht]
      exact agree_leaf _ _ (h.behind hst) hbehind
    | .word letters =>
      rw [factorStep, factorStep, hs, ht]
      show Agree S (Alike S) (if _ then _ else _) (if _ then _ else _)
      split
      · exact (hf _ _ (hst' rfl)).bind fun _ _ he => agree_wrap .squareRoot he
      · exact .stuck (h.behind hst)
    | .symbol c =>
      by_cases hplus : c = '+'
      · subst hplus
        rw [factorStep, factorStep, hs, ht]
        exact (hp _ _ (hst' rfl)).bind fun _ _ he => agree_wrap .plus he
      by_cases hminus : c = '-'
      · subst hminus
        rw [factorStep, factorStep, hs, ht]
        exact (hp _ _ (hst' rfl)).bind fun _ _ he => agree_wrap .minus he
      by_cases hopen : c = '('
      · subst hopen
        rw [factorStep, factorStep, hs, ht]
        exact agree_group h hp _ _ (hst' rfl)
      by_cases hpoint : c = '.'
      · subst hpoint
        rw [factorStep, factorStep, hs, ht]
        exact .stuck (h.behind hst)
      rw [factorStep_symbol hs hplus hminus hopen hpoint,
        factorStep_symbol ht hplus hminus hopen hpoint]
      exact .stuck (h.behind hst)

theorem agree_factor_power (h : Matches R S) (room : Nat) :
    RulesAgree R S (factor room) (factor room) ∧ RulesAgree R S (power room) (power room) := by
  induction room with
  | zero => exact ⟨fun _ _ hst => .deep (h.behind hst), fun _ _ hst => .deep (h.behind hst)⟩
  | succ room ih =>
    have hfactor := agree_factorStep h ih.1 ih.2
    exact ⟨hfactor, agree_powerStep h hfactor ih.2⟩

/-- A text ends at related places, or goes on at both. -/
theorem Matches.next?_behind (h : Matches R S) {s : σ} {t : τ} (hst : S s t) :
    (next? s = none ∧ next? t = none) ∨ (∃ next, next? s = some next) ∧ ∃ next, next? t = some next := by
  rcases h.product hst with hst | ⟨op, s', t', hs, ht, _⟩
  · cases hs : next? s with
    | none => exact .inl ⟨rfl, h.next?_none hst hs⟩
    | some next =>
      obtain ⟨t', ht, _⟩ := h.next?_some hst hs
      exact .inr ⟨⟨_, rfl⟩, _, ht⟩
  · obtain ⟨_, _, hs, _⟩ := productOperator?_cases hs
    obtain ⟨_, _, ht, _⟩ := productOperator?_cases ht
    exact .inr ⟨⟨_, hs⟩, _, ht⟩

/-- Texts at places that match are read alike. -/
theorem Matches.agree_expression (h : Matches R S) (room : Nat) {s : σ} {t : τ} (hst : R s t) :
    Agree S Eq (expression room s) (expression room t) := by
  unfold expression
  rcases h.next?_behind (h.behind hst) with ⟨hs, ht⟩ | ⟨⟨_, hs⟩, _, ht⟩
  · rw [hs, ht]
    exact .stuck (h.behind hst)
  · rw [hs, ht]
    refine (agree_sum h (agree_factor_power h room).2 s t hst).bind fun p p' hp => ?_
    rcases h.next?_behind hp.rest with ⟨hs, ht⟩ | ⟨⟨_, hs⟩, _, ht⟩
    · rw [hs, ht]
      exact .read hp.tree
    · rw [hs, ht]
      exact .stuck hp.rest

/-- Texts at related places are read alike. -/
theorem agree_expression (h : Simulates R) (room : Nat) {s : σ} {t : τ} (hst : R s t) :
    Agree R Eq (expression room s) (expression room t) :=
  h.matches.agree_expression room hst

end Grammar

end Calculator
