import Calculator.Proofs.Cursor.Steps

/-!
# The limit on routines

How often routines may call themselves inside each other has no part in what they answer: a routine
that has an outcome has the same one with every higher limit (`perform_le`).
-/

namespace Calculator.Cursor

open Grammar (maxHeight)

/-- Where `x` has an outcome, `y` has the same. -/
def Precedes {α : Type} (x y : Step α) : Prop := ∀ c r, x c = some r → y c = some r

section

variable {α β : Type} {x y z : Step α} {f g : α → Step β}

theorem Precedes.refl (x : Step α) : Precedes x x := fun _ _ => id

theorem Precedes.trans (h : Precedes x y) (h' : Precedes y z) : Precedes x z :=
  fun c r hr => h' c r (h c r hr)

theorem precedes_none (x : Step α) : Precedes (fun _ => none) x := by
  intro c r hr
  cases hr

theorem Precedes.bind (h : Precedes x y) (hf : ∀ a, Precedes (f a) (g a)) :
    Precedes (x >>= f) (y >>= g) := by
  intro c r hr
  cases hx : x c with
  | none =>
    have hnone : (x >>= f) c = none := by
      show (x c).bind _ = _
      rw [hx]
      rfl
    rw [hnone] at hr
    cases hr
  | some result =>
    obtain ⟨answer, c'⟩ := result
    have hy := h c _ hx
    cases answer with
    | ok a =>
      rw [bind_ok hx] at hr
      rw [bind_ok hy]
      exact hf a c' r hr
    | error err =>
      rw [bind_error hx] at hr
      rw [bind_error hy]
      exact hr

/-- A first step that is the same for both. -/
theorem precedes_bind (x : Step α) (hf : ∀ a, Precedes (f a) (g a)) :
    Precedes (x >>= f) (x >>= g) := (Precedes.refl x).bind hf

end

section

variable {text : List Char} {x y factor factor' power power' : Step Subtree}

theorem Precedes.nested (h : Precedes x y) : Precedes (nested text x) (nested text y) := by
  intro c r hr
  rw [Cursor.nested] at hr ⊢
  split at hr
  next hle =>
    rw [if_pos hle]
    exact hr
  next hlt =>
    rw [if_neg hlt]
    cases hx : x c.opened with
    | none =>
      rw [hx] at hr
      cases hr
    | some result =>
      rw [hx] at hr
      rw [h _ _ hx]
      exact hr

theorem Precedes.openFactor (h : Precedes x y) : Precedes (openFactor text x) (openFactor text y) :=
  precedes_bind _ fun _ => h.nested

theorem Precedes.continued (l : Layer) (h : Precedes x y) (left : Subtree) :
    Precedes (continued text l x left) (continued text l y left) := by
  induction hk : maxHeight - left.height using Nat.strongRecOn generalizing left with
  | ind k ih =>
    rw [Cursor.continued, Cursor.continued]
    refine precedes_bind _ fun _ => precedes_bind _ fun op? => ?_
    cases op? with
    | none => exact .refl _
    | some op =>
      refine h.bind fun right => ?_
      split
      next => exact .refl _
      next hle => exact ih _ (by simp only []; omega) _ rfl

theorem Precedes.layer (l : Layer) (h : Precedes x y) : Precedes (layer text l x) (layer text l y) :=
  precedes_bind _ fun _ => h.bind (h.continued l)

theorem Precedes.product (h : Precedes x y) : Precedes (product text x) (product text y) :=
  h.layer .product

theorem Precedes.sum (h : Precedes x y) : Precedes (sum text x) (sum text y) := h.product.layer .sum

theorem Precedes.expression (h : Precedes x y) :
    Precedes (expression text x) (expression text y) := precedes_bind _ fun _ => h.sum

theorem Precedes.group (h : Precedes x y) : Precedes (group text x) (group text y) :=
  h.expression.bind fun _ => .refl _

theorem Precedes.powerFrom (hfactor : Precedes factor factor') (hpower : Precedes power power') :
    Precedes (powerFrom text factor power) (powerFrom text factor' power') := by
  refine precedes_bind _ fun _ => hfactor.bind fun base => precedes_bind _ fun _ =>
    precedes_bind _ fun hasExponent => ?_
  split
  next => exact hpower.nested.bind fun _ => .refl _
  next => exact .refl _

theorem Precedes.factorFrom (hfactor : Precedes factor factor') (hpower : Precedes power power') :
    Precedes (factorFrom text factor power) (factorFrom text factor' power') := by
  refine precedes_bind _ fun _ => precedes_bind _ fun isRoot => ?_
  split
  next => exact hfactor.bind fun _ => .refl _
  refine precedes_bind _ fun isPlus => ?_
  split
  next => exact hpower.bind fun _ => .refl _
  refine precedes_bind _ fun isMinus => ?_
  split
  next => exact hpower.bind fun _ => .refl _
  refine precedes_bind _ fun isOpen => ?_
  split
  next => exact hpower.group
  next => exact .refl _

end

theorem precedes_succ (text : List Char) (limit : Nat) :
    Precedes (factor text limit) (factor text (limit + 1)) ∧
      Precedes (power text limit) (power text (limit + 1)) := by
  induction limit with
  | zero =>
    have hfactor : Precedes (factor text 0) (factor text 1) := (precedes_none _).openFactor
    exact ⟨hfactor, hfactor.powerFrom (precedes_none _)⟩
  | succ limit ih =>
    have hfactor : Precedes (factor text (limit + 1)) (factor text (limit + 2)) :=
      (ih.1.factorFrom ih.2).openFactor
    exact ⟨hfactor, hfactor.powerFrom ih.2⟩

theorem precedes_of_le (text : List Char) {m n : Nat} (h : m ≤ n) :
    Precedes (factor text m) (factor text n) ∧ Precedes (power text m) (power text n) := by
  induction h with
  | refl => exact ⟨.refl _, .refl _⟩
  | @step k _ ih =>
    have hsucc := precedes_succ text k
    exact ⟨ih.1.trans hsucc.1, ih.2.trans hsucc.2⟩

/-- A higher limit changes no outcome. -/
theorem perform_le (text : List Char) {m n : Nat} (h : m ≤ n) (routine : Routine) :
    Precedes (perform text m routine) (perform text n routine) := by
  obtain ⟨hfactor, hpower⟩ := precedes_of_le text h
  cases routine with
  | expression => exact hpower.expression
  | layer l =>
    cases l with
    | sum => exact hpower.sum
    | product => exact hpower.product
  | power => exact hpower
  | factor => exact hfactor

theorem read_le (text : List Char) {m n : Nat} (h : m ≤ n) :
    Precedes (read text m) (read text n) := by
  refine precedes_bind _ fun _ => precedes_bind _ fun isEmpty => ?_
  split
  next => exact .refl _
  next => exact (perform_le text h .expression).bind fun _ => .refl _

end Calculator.Cursor
