import Calculator.Proofs.Grammar.Soundness
import Calculator.Proofs.Token.Parentheses

/-!
# Groups in derived tokens

Where derived tokens have a pair of parentheses that match each other, what is inside is derived as
a sum by itself, and the tokens around it take any other sum in its place (`Derives.framed`): the
tree has the tree of the group at one place, and the nesting is the group's own, moved in by what is
open around it, or that of the rest.
-/

namespace Calculator

namespace Expr

/-! ## Trees with a place -/

/-- An expression with a place for an operand. -/
inductive Context where
  | hole
  | unary (op : UnaryOp) (operand : Context)
  | left (op : BinaryOp) (left : Context) (right : Expr)
  | right (op : BinaryOp) (left : Expr) (right : Context)

namespace Context

/-- The expression with `e` at the place. -/
def fill : Context → Expr → Expr
  | hole, e => e
  | unary op c, e => .unary op (c.fill e)
  | left op c r, e => .binary op (c.fill e) r
  | right op l c, e => .binary op l (c.fill e)

/-- The place inside a place. -/
def comp : Context → Context → Context
  | hole, d => d
  | unary op c, d => unary op (c.comp d)
  | left op c r, d => left op (c.comp d) r
  | right op l c, d => right op l (c.comp d)

theorem fill_comp (c d : Context) (e : Expr) : (c.comp d).fill e = c.fill (d.fill e) := by
  induction c with
  | hole => rfl
  | unary op c ih => rw [comp, fill, fill, ih]
  | left op c r ih => rw [comp, fill, fill, ih]
  | right op l c ih => rw [comp, fill, fill, ih]

theorem height_le_height_fill (c : Context) (e : Expr) : e.height ≤ (c.fill e).height := by
  induction c with
  | hole => exact Nat.le_refl _
  | unary op c ih => rw [fill, height]; omega
  | left op c r ih => rw [fill, height]; omega
  | right op l c ih => rw [fill, height]; omega

theorem height_fill_le {e e' : Expr} (h : e'.height ≤ e.height) (c : Context) :
    (c.fill e').height ≤ (c.fill e).height := by
  induction c with
  | hole => exact h
  | unary op c ih => rw [fill, fill, height, height]; omega
  | left op c r ih => rw [fill, fill, height, height]; omega
  | right op l c ih => rw [fill, fill, height, height]; omega

end Context

end Expr

namespace Grammar

open Calculator.Expr (Context)
open Text (Balanced)

/-! ## Balanced tokens -/

/-- Each parenthesis has its partner among the tokens. -/
def Paired (ts : List Token) : Prop := Balanced (ts.map Token.mark)

theorem Paired.append {ts us : List Token} (hts : Paired ts) (hus : Paired us) :
    Paired (ts ++ us) := by
  rw [Paired, List.map_append]
  exact Balanced.append hts hus

theorem Paired.cons {t : Token} {ts : List Token} (hopen : t.mark ≠ '(') (hclose : t.mark ≠ ')')
    (h : Paired ts) : Paired (t :: ts) :=
  Balanced.cons hopen hclose h

theorem Paired.group {ts : List Token} (h : Paired ts) :
    Paired (.symbol '(' :: (ts ++ [.symbol ')'])) := by
  rw [Paired, List.map_cons, List.map_append]
  exact Balanced.group h

theorem Paired.unary {ts : List Token} (op : UnaryOp) (h : Paired ts) : Paired (op.token :: ts) :=
  h.cons (by cases op <;> decide) (by cases op <;> decide)

theorem Paired.binary {ts us : List Token} (hts : Paired ts) (op : BinaryOp) (hus : Paired us) :
    Paired (ts ++ op.token :: us) :=
  hts.append (hus.cons (by cases op <;> decide) (by cases op <;> decide))

theorem Derives.paired {level : Level} {ts : List Token} {e : Expr} {n : Nat}
    (h : Derives level ts e n) : Paired ts := by
  induction h with
  | literal =>
    have hopen : (' ' : Char) ≠ '(' := by decide
    have hclose : (' ' : Char) ≠ ')' := by decide
    exact Paired.cons hopen hclose rfl
  | root _ ih => exact ih.unary .squareRoot
  | sign _ _ ih => exact ih.unary _
  | group _ ih => exact ih.group
  | base _ ih | ofPower _ ih | ofProduct _ ih => exact ih
  | power _ _ _ ihb ihe => exact ihb.binary .power ihe
  | multiplicative _ _ _ ihl ihr | additive _ _ _ ihl ihr => exact ihl.binary _ ihr
  | juxtaposed _ _ _ ihl ihr => exact ihl.append ihr

theorem not_paired_open {ts us : List Token} (h : Paired (ts ++ us)) (vs : List Token) :
    ¬ Paired (vs ++ .symbol '(' :: ts) := by
  rw [Paired, List.map_append] at h
  rw [Paired, List.map_append]
  exact Text.not_balanced_open h _

theorem not_paired_close {ts : List Token} (h : Paired ts) (us : List Token) :
    ¬ Paired (ts ++ .symbol ')' :: us) := by
  rw [Paired, List.map_append]
  exact Text.not_balanced_close h _

/-! ## Where a group lies -/

/-- The tokens `es` in parentheses, between other tokens. -/
def grouped (us es ws : List Token) : List Token := us ++ .symbol '(' :: (es ++ .symbol ')' :: ws)

variable {us es ws ts vs : List Token}

theorem grouped_append (us es ws vs : List Token) :
    grouped us es ws ++ vs = grouped us es (ws ++ vs) := by
  simp [grouped]

theorem append_grouped (vs us es ws : List Token) :
    vs ++ grouped us es ws = grouped (vs ++ us) es ws := by
  simp [grouped]

theorem cons_grouped (t : Token) (us es ws : List Token) :
    t :: grouped us es ws = grouped (t :: us) es ws := rfl

/-- Tokens in parentheses lie before a place with nothing open, or behind it. -/
theorem grouped_eq_append (hts : Paired ts) (hes : Paired es) (h : grouped us es ws = ts ++ vs) :
    (∃ ws', ts = grouped us es ws' ∧ ws = ws' ++ vs) ∨
      ∃ us', us = ts ++ us' ∧ vs = grouped us' es ws := by
  rcases List.append_eq_append_iff.mp h with ⟨xs, hxs, hgroup⟩ | ⟨xs, hus, hvs⟩
  · rcases xs with _ | ⟨x, xs⟩
    · rw [List.append_nil] at hxs
      exact .inr ⟨[], by rw [hxs, List.append_nil], hgroup.symm⟩
    · obtain ⟨rfl, htail⟩ := List.cons.inj hgroup
      rcases List.append_eq_append_iff.mp htail with ⟨ys, rfl, hclose⟩ | ⟨ys, rfl, -⟩
      · rcases ys with _ | ⟨y, ys⟩
        · rw [List.append_nil] at hxs
          rw [← List.append_nil es] at hes
          exact absurd (hxs ▸ hts) (not_paired_open hes us)
        · obtain ⟨rfl, hws⟩ := List.cons.inj hclose
          exact .inl ⟨ys, hxs, hws⟩
      · exact absurd (hxs ▸ hts) (not_paired_open hes us)
  · exact .inr ⟨xs, hus, hvs⟩

/-- Behind a token that is no parenthesis the group lies behind that token. -/
theorem grouped_eq_cons {t : Token} (ht : t ≠ .symbol '(') (h : grouped us es ws = t :: ts) :
    ∃ us', us = t :: us' ∧ ts = grouped us' es ws := by
  cases us with
  | nil => exact absurd (List.cons.inj h).1.symm ht
  | cons u us =>
    obtain ⟨rfl, htail⟩ := List.cons.inj h
    exact ⟨us, rfl, htail.symm⟩

/-- A group in a group is the whole of it or lies inside. -/
theorem grouped_eq_group (hts : Paired ts) (hes : Paired es)
    (h : grouped us es ws = .symbol '(' :: (ts ++ [.symbol ')'])) :
    (us = [] ∧ ws = [] ∧ ts = es) ∨
      ∃ us' ws', us = .symbol '(' :: us' ∧ ws = ws' ++ [.symbol ')'] ∧ ts = grouped us' es ws' := by
  cases us with
  | nil =>
    have htail := (List.cons.inj h).2
    rcases List.append_eq_append_iff.mp htail with ⟨xs, hxs, hclose⟩ | ⟨xs, hxs, hclose⟩
    · rcases xs with _ | ⟨x, xs⟩
      · rw [List.append_nil] at hxs
        exact .inl ⟨rfl, (List.cons.inj hclose).2, hxs⟩
      · obtain ⟨rfl, -⟩ := List.cons.inj hclose
        exact absurd (hxs ▸ hts) (not_paired_close hes xs)
    · rcases xs with _ | ⟨x, xs⟩
      · rw [List.append_nil] at hxs
        exact .inl ⟨rfl, (List.cons.inj hclose).2.symm, hxs.symm⟩
      · simp at hclose
  | cons u us =>
    obtain ⟨rfl, htail⟩ := List.cons.inj h
    rcases grouped_eq_append hts hes htail with ⟨ws', hts', hws⟩ | ⟨us', -, hlast⟩
    · exact .inr ⟨us, ws', rfl, hws, hts'⟩
    · have hlength := congrArg List.length hlast
      simp only [grouped, List.length_append, List.length_cons, List.length_nil] at hlength
      omega

theorem signLed_grouped (us es es' ws ws' : List Token) :
    signLed (grouped us es ws) = signLed (grouped us es' ws') := by
  induction us with
  | nil => rw [grouped, grouped, List.nil_append, List.nil_append, signLed_group, signLed_group]
  | cons u us ih => rw [← cons_grouped, ← cons_grouped, signLed, signLed, ih]

theorem juxtaposes_grouped (us es es' ws ws' : List Token) (h : juxtaposes (grouped us es ws)) :
    juxtaposes (grouped us es' ws') := by
  cases us with
  | nil => rfl
  | cons u us =>
    rw [← cons_grouped] at h ⊢
    cases u <;> exact h

/-! ## Frames -/

/-- Around every group the rule derives the tokens, with the group's tree at the place of `c`. -/
def Frames (level : Level) (us ws : List Token) (c : Context) (k l : Nat) : Prop :=
  ∀ es e m, Derives .sum es e m → Derives level (grouped us es ws) (c.fill e) (max k (m + l))

/-- The group is derived by itself, and the tokens around it are derived around every other one. -/
def Framed (level : Level) (us es ws : List Token) (t : Expr) (n : Nat) : Prop :=
  ∃ c k l e m, Derives .sum es e m ∧ t = Context.fill c e ∧ n = max k (m + l) ∧
    Frames level us ws c k l

variable {level : Level} {t : Expr} {n : Nat}

theorem Framed.group (h : Derives .sum es t n) : Framed .factor [] es [] t (n + 1) := by
  refine ⟨.hole, 0, 1, t, n, h, rfl, by omega, fun es' e' m' h' => ?_⟩
  rw [Nat.zero_max]
  exact h'.group

/-- What is framed stays framed under another rule. -/
theorem Framed.within {place : Level} {us' ws' : List Token} {t' : Expr} {n' : Nat}
    (h : Framed level us es ws t n) (outer : Context) (k l : Nat) (ht : t' = outer.fill t)
    (hn : n' = max k (n + l))
    (hd : ∀ es e m, Derives level (grouped us es ws) e m →
      Derives place (grouped us' es ws') (outer.fill e) (max k (m + l))) :
    Framed place us' es ws' t' n' := by
  obtain ⟨c, i, j, e, m, hes, rfl, rfl, hframes⟩ := h
  refine ⟨outer.comp c, max k (i + l), j + l, e, m, hes, ?_, ?_, fun es' e' m' h' => ?_⟩
  · rw [ht, Context.fill_comp]
  · omega
  · have hnesting : max (max k (i + l)) (m' + (j + l)) = max k (max i (m' + j) + l) := by omega
    rw [Context.fill_comp, hnesting]
    exact hd _ _ _ (hframes es' e' m' h')

theorem Framed.raise {place : Level} (h : Framed level us es ws t n)
    (hrank : level.rank ≤ place.rank) : Framed place us es ws t n := by
  refine h.within .hole 0 0 rfl (Nat.zero_max n).symm fun es' e' m' h' => ?_
  rw [Nat.zero_max]
  exact h'.raise hrank

theorem Framed.unary {op : UnaryOp} {inner : Level} (h : Framed inner us es ws t n)
    (hd : ∀ {ts : List Token} {e : Expr} {m : Nat}, Derives inner ts e m →
      Derives .factor (op.token :: ts) (.unary op e) (m + 1)) :
    Framed .factor (op.token :: us) es ws (.unary op t) (n + 1) := by
  refine h.within (.unary op .hole) 0 1 rfl (Nat.zero_max _).symm fun es' e' m' h' => ?_
  rw [Nat.zero_max, ← cons_grouped]
  exact hd h'

/-- The left operand, under an operator that is written or not. -/
theorem Framed.left {op : BinaryOp} {place : Level} {r : Expr} {k : Nat}
    (h : Framed level us es ws t n)
    (hd : ∀ es e m, Derives level (grouped us es ws) e m →
      Derives place (grouped us es ws ++ vs) (.binary op e r) (max m k)) :
    Framed place us es (ws ++ vs) (.binary op t r) (max n k) := by
  refine h.within (.left op .hole r) k 0 rfl (Nat.max_comm n k) fun es' e' m' h' => ?_
  rw [← grouped_append, Nat.max_comm]
  exact hd _ _ _ h'

/-- The right operand, likewise; in it `l` more factors and exponents may be open. -/
theorem Framed.right {op : BinaryOp} {place : Level} {e : Expr} {k l : Nat}
    (h : Framed level us es ws t n)
    (hd : ∀ es e' m, Derives level (grouped us es ws) e' m →
      Derives place (ts ++ grouped us es ws) (.binary op e e') (max k (m + l))) :
    Framed place (ts ++ us) es ws (.binary op e t) (max k (n + l)) := by
  refine h.within (.right op e .hole) k l rfl rfl fun es' e' m' h' => ?_
  rw [← append_grouped]
  exact hd _ _ _ h'

/-- Both places of a group under an operator that is written. -/
theorem Framed.binary {op : BinaryOp} {inner place : Level} {us' : List Token} {b e : Expr}
    {m k : Nat} (hpaired : Paired ts) (hes : Paired es)
    (h : ts ++ op.token :: us' = grouped us es ws)
    (ihl : ∀ {us ws}, ts = grouped us es ws → Framed level us es ws b m)
    (ihr : ∀ {us ws}, us' = grouped us es ws → Framed inner us es ws e k)
    {l : Nat}
    (hl : ∀ {us ws} es' e' m', ts = grouped us es ws → Derives level (grouped us es' ws) e' m' →
      Derives place (grouped us es' ws ++ op.token :: us') (.binary op e' e) (max m' (k + l)))
    (hr : ∀ {us ws} es' e' m', Derives inner (grouped us es' ws) e' m' →
      Derives place (ts ++ op.token :: grouped us es' ws) (.binary op b e') (max m (m' + l))) :
    Framed place us es ws (.binary op b e) (max m (k + l)) := by
  rcases grouped_eq_append hpaired hes h.symm with ⟨ws', hts, rfl⟩ | ⟨us₁, rfl, hus⟩
  · exact (ihl hts).left fun es' e' m' h' => hl es' e' m' hts h'
  · have hop : op.token ≠ .symbol '(' := by cases op <;> decide
    obtain ⟨us₂, rfl, hus'⟩ := grouped_eq_cons hop hus.symm
    rw [← List.singleton_append, ← List.append_assoc]
    refine (ihr hus').right fun es' e' m' h' => ?_
    rw [List.append_assoc]
    exact hr es' e' m' h'

theorem Derives.framed (h : Derives level ts t n) (hes : Paired es) (hts : ts = grouped us es ws) :
    Framed level us es ws t n := by
  induction h generalizing us ws with
  | literal => simp [grouped, List.singleton_eq_append_iff] at hts
  | root _ ih =>
    obtain ⟨us', rfl, hts'⟩ := grouped_eq_cons (by decide) hts.symm
    exact (ih hts').unary .root
  | @sign op _ _ _ hop _ ih =>
    obtain ⟨us', rfl, hts'⟩ := grouped_eq_cons (by cases op <;> decide) hts.symm
    exact (ih hts').unary (.sign hop)
  | group h ih =>
    rcases grouped_eq_group h.paired hes hts.symm with ⟨rfl, rfl, rfl⟩ | ⟨us', ws', rfl, rfl, hts'⟩
    · exact .group h
    · refine (ih hts').within .hole 0 1 rfl (Nat.zero_max _).symm fun es' e' m' h' => ?_
      rw [Nat.zero_max, ← cons_grouped, ← grouped_append]
      exact h'.group
  | base _ ih | ofPower _ ih | ofProduct _ ih => exact (ih hts).raise (by decide)
  | power hb hs he ihb ihe =>
    refine .binary hb.paired hes hts ihb ihe (fun es' e' m' hts' h' => ?_) fun es' e' m' h' => ?_
    · rw [hts', signLed_grouped _ _ es' _ _] at hs
      exact .power h' hs he
    · exact .power hb hs h'
  | multiplicative hop hl hr ihl ihr =>
    exact .binary (l := 0) hl.paired hes hts ihl ihr (fun es' e' m' _ h' => .multiplicative hop h' hr)
      fun es' e' m' h' => .multiplicative hop hl h'
  | juxtaposed hl hr hus ihl ihr =>
    rcases grouped_eq_append hl.paired hes hts.symm with ⟨ws', hts', rfl⟩ | ⟨us', rfl, hus'⟩
    · exact (ihl hts').left fun es' e' m' h' => .juxtaposed h' hr hus
    · rw [hus'] at hus
      exact (ihr hus').right (l := 0) fun es' e' m' h' =>
        .juxtaposed hl h' (juxtaposes_grouped _ _ es' _ _ hus)
  | additive hop hl hr ihl ihr =>
    exact .binary (l := 0) hl.paired hes hts ihl ihr (fun es' e' m' _ h' => .additive hop h' hr)
      fun es' e' m' h' => .additive hop hl h'

end Grammar

end Calculator
