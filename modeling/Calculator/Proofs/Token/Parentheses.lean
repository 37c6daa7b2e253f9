import Calculator.Proofs.Token.Breaks

/-!
# Parentheses

`Text.Balanced` says of a text that each of its parentheses has its partner in the text: then the
parentheses around it match each other.  Parentheses are tokens by themselves: a text is cut at each
of them (`Token.scanAll_group`), and what is open in a text is open in its tokens
(`Token.openAfter?_scanAll`).
-/

namespace Calculator

namespace Text

/-- How many parentheses are open behind a text that `n` are open before, unless it closes one that
is not open. -/
def openAfter? : Nat → List Char → Option Nat
  | n, [] => some n
  | n, c :: s =>
    if c = '(' then openAfter? (n + 1) s
    else if c = ')' then if n = 0 then none else openAfter? (n - 1) s
    else openAfter? n s

/-- Each parenthesis has its partner in the text. -/
def Balanced (s : List Char) : Prop := openAfter? 0 s = some 0

instance (s : List Char) : Decidable (Balanced s) := inferInstanceAs (Decidable (_ = _))

variable {u v : List Char} {k m n : Nat}

@[simp] theorem openAfter?_nil (n : Nat) : openAfter? n [] = some n := rfl

@[simp] theorem openAfter?_open (n : Nat) (s : List Char) :
    openAfter? n ('(' :: s) = openAfter? (n + 1) s := rfl

@[simp] theorem openAfter?_close (n : Nat) (s : List Char) :
    openAfter? (n + 1) (')' :: s) = openAfter? n s := rfl

@[simp] theorem openAfter?_close_zero (s : List Char) : openAfter? 0 (')' :: s) = none := rfl

theorem openAfter?_cons {c : Char} (hopen : c ≠ '(') (hclose : c ≠ ')') (n : Nat) (s : List Char) :
    openAfter? n (c :: s) = openAfter? n s := by
  rw [openAfter?, if_neg hopen, if_neg hclose]

theorem openAfter?_append (n : Nat) (u v : List Char) :
    openAfter? n (u ++ v) = (openAfter? n u).bind fun k => openAfter? k v := by
  induction u generalizing n with
  | nil => rfl
  | cons c u ih =>
    rw [List.cons_append, openAfter?, openAfter?]
    split
    · exact ih _
    split
    · split
      · rfl
      · exact ih _
    · exact ih _

theorem openAfter?_add (h : openAfter? n u = some m) (k : Nat) :
    openAfter? (n + k) u = some (m + k) := by
  induction u generalizing n with
  | nil =>
    cases h
    rfl
  | cons c u ih =>
    rw [openAfter?] at h ⊢
    split
    next hopen =>
      rw [if_pos hopen] at h
      have := ih h
      rwa [Nat.add_right_comm] at this
    next hopen =>
      rw [if_neg hopen] at h
      split
      next hclose =>
        rw [if_pos hclose] at h
        split at h
        · cases h
        next hn =>
          have hne : n + k ≠ 0 := by omega
          have hsub : n + k - 1 = n - 1 + k := by omega
          rw [if_neg hne, hsub]
          exact ih h
      next hclose =>
        rw [if_neg hclose] at h
        exact ih h

theorem openAfter?_of_forall (hu : ∀ c ∈ u, c ≠ '(' ∧ c ≠ ')') (n : Nat) :
    openAfter? n u = some n := by
  induction u with
  | nil => rfl
  | cons c u ih =>
    rw [List.forall_mem_cons] at hu
    rw [openAfter?_cons hu.1.1 hu.1.2, ih hu.2]

theorem Balanced.openAfter?_append (h : Balanced u) (n : Nat) (v : List Char) :
    openAfter? n (u ++ v) = openAfter? n v := by
  have hu := openAfter?_add h n
  rw [Nat.zero_add] at hu
  rw [Text.openAfter?_append, hu, Option.bind_some]

theorem Balanced.append (hu : Balanced u) (hv : Balanced v) : Balanced (u ++ v) :=
  (hu.openAfter?_append 0 v).trans hv

theorem Balanced.group (h : Balanced u) : Balanced ('(' :: (u ++ [')'])) := by
  rw [Balanced, openAfter?_open, h.openAfter?_append]
  rfl

theorem Balanced.cons {c : Char} (hopen : c ≠ '(') (hclose : c ≠ ')') (h : Balanced u) :
    Balanced (c :: u) :=
  (openAfter?_cons hopen hclose 0 u).trans h

/-- A parenthesis that nothing closes is open at the end. -/
theorem not_balanced_open (h : Balanced (u ++ v)) (s : List Char) : ¬ Balanced (s ++ '(' :: u) := by
  intro hopen
  rw [Balanced, openAfter?_append, Option.bind_eq_some_iff] at h hopen
  obtain ⟨k, hk, _⟩ := h
  obtain ⟨j, _, hj⟩ := hopen
  rw [openAfter?_open, ← Nat.zero_add (j + 1), openAfter?_add hk] at hj
  simp at hj

/-- A parenthesis that nothing opens is closed too early. -/
theorem not_balanced_close (h : Balanced u) (s : List Char) : ¬ Balanced (u ++ ')' :: s) := by
  rw [Balanced, h.openAfter?_append]
  simp

end Text

namespace Token

open Text (isBlank openAfter? Balanced)

/-! ## Parentheses as tokens -/

/-- The character of a symbol; literals and words are not looked into. -/
def mark : Token → Char
  | symbol c => c
  | _ => ' '

/-- The tokens of a text with a group in it. -/
theorem scanAll_group (u s w : List Char) : scanAll (u ++ '(' :: (s ++ ')' :: w)) =
    scanAll u ++ symbol '(' :: (scanAll s ++ symbol ')' :: scanAll w) := by
  rw [scanAll_append_symbol (by decide) (by decide), scanAll_append_symbol (by decide) (by decide)]

theorem openAfter?_text {t : Token} (ht : t.Lexeme) (n : Nat) (s : List Char) :
    openAfter? n (t.text ++ s) = openAfter? n (t.mark :: s) := by
  match t with
  | symbol c => rfl
  | literal whole fraction =>
    have hplain : ∀ c ∈ (literal whole fraction).text, c ≠ '(' ∧ c ≠ ')' := by
      intro c hc
      constructor <;> rintro rfl <;> exact absurd (ht.isDigit_or_point _ hc) (by decide)
    rw [Text.openAfter?_append, Text.openAfter?_of_forall hplain]
    rfl
  | word letters =>
    have hplain : ∀ c ∈ letters, c ≠ '(' ∧ c ≠ ')' := by
      intro c hc
      constructor <;> rintro rfl <;> exact absurd (ht.1 _ hc) (by decide)
    show openAfter? n (letters ++ s) = _
    rw [Text.openAfter?_append, Text.openAfter?_of_forall hplain]
    rfl

theorem isBlank_ne_paren {c : Char} (h : isBlank c) : c ≠ '(' ∧ c ≠ ')' := by
  constructor <;> rintro rfl <;> exact absurd h (by decide)

theorem openAfter?_scanAll (n : Nat) (s : List Char) :
    openAfter? n ((scanAll s).map mark) = openAfter? n s := by
  fun_induction scanAll s generalizing n with
  | case1 s h =>
    obtain ⟨b, hb, hs⟩ := Text.exists_blanks_append s
    rw [scan_eq_none_iff.mp h, List.append_nil] at hs
    rw [hs, Text.openAfter?_of_forall fun c hc => isBlank_ne_paren (hb c hc)]
    rfl
  | case2 s t rest h _ ih =>
    obtain ⟨b, hb, rfl, ht, _⟩ := exists_of_scan h
    have hblanks := Text.openAfter?_of_forall (fun c hc => isBlank_ne_paren (hb c hc)) n
    rw [Text.openAfter?_append n b, hblanks, Option.bind_some, openAfter?_text ht, List.map_cons,
      ← List.singleton_append, Text.openAfter?_append n [t.mark], ← List.singleton_append (l := rest),
      Text.openAfter?_append n [t.mark]]
    simp only [ih]

theorem balanced_scanAll {s : List Char} (h : Balanced s) : Balanced ((scanAll s).map mark) :=
  (openAfter?_scanAll 0 s).trans h

end Token

end Calculator
