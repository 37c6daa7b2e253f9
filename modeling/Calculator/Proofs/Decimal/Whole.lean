import Calculator.Decimal.Wide
import Calculator.Proofs.Decimal.Product

/-!
# Wide magnitudes of whole numbers

A whole number may be written with fraction zeros, and then digits that are cut off are zeros for as
long as there are fraction digits.  So whatever group of digits decides the rounding of a wide
magnitude, a whole number keeps its value or is refused (`Magnitude.mulWide?_whole`,
`Magnitude.narrow?_whole`); and the number one is never refused (`Magnitude.exists_mulWide?`,
`Magnitude.exists_narrow?`).
-/

namespace Calculator

namespace Magnitude

variable {m x q : Magnitude} {n k : Nat}

/-- The number is `n`, with zeros for fraction digits. -/
def IsWhole (m : Magnitude) (n : Nat) : Prop := m.coefficient = n * pow10 m.scale

theorem value_eq_natCast_iff : m.value = n ↔ m.IsWhole n := by
  rw [value, div_eq_iff (pow10_cast_ne_zero _), IsWhole]
  exact_mod_cast Iff.rfl

theorem isWhole_zero : zero.IsWhole 0 := (Nat.zero_mul _).symm

theorem isWhole_one : one.IsWhole 1 := rfl

theorem value_one : one.value = 1 := by rw [value_eq_natCast_iff.mpr isWhole_one, Nat.cast_one]

theorem IsWhole.mul (hm : m.IsWhole n) (hx : x.IsWhole k) :
    IsWhole ⟨m.coefficient * x.coefficient, m.scale + x.scale⟩ (n * k) := by
  show m.coefficient * x.coefficient = n * k * pow10 (m.scale + x.scale)
  rw [hm, hx, pow10_add, Nat.mul_mul_mul_comm]

theorem IsWhole.le_coefficient (h : m.IsWhole n) : n ≤ m.coefficient := by
  rw [h]
  exact Nat.le_mul_of_pos_right n (pow10_pos _)

theorem IsWhole.coefficient_eq_zero_iff (h : m.IsWhole n) : n = 0 ↔ m.coefficient = 0 := by
  rw [h, Nat.mul_eq_zero, or_iff_left (pow10_pos _).ne']

/-! ## Digits that are cut off -/

/-- A fraction digit of a whole number is a zero. -/
theorem IsWhole.coefficient_eq (h : m.IsWhole n) (hk : k ≤ m.scale) :
    m.coefficient = n * pow10 (m.scale - k) * pow10 k := by
  rw [h, Nat.mul_assoc, ← pow10_add, Nat.sub_add_cancel hk]

theorem IsWhole.div (h : m.IsWhole n) (hk : k ≤ m.scale) :
    IsWhole ⟨m.coefficient / pow10 k, m.scale - k⟩ n := by
  show m.coefficient / pow10 k = n * pow10 (m.scale - k)
  rw [h.coefficient_eq hk, Nat.mul_div_cancel _ (pow10_pos k)]

theorem IsWhole.mod (h : m.IsWhole n) (hk : k ≤ m.scale) : m.coefficient % pow10 k = 0 := by
  rw [h.coefficient_eq hk, Nat.mul_mod_left]

theorem IsWhole.dropDigits_eq (h : m.IsWhole n) (hk : k ≤ m.scale) :
    m.dropDigits k = ⟨m.coefficient / pow10 k, m.scale - k⟩ := by
  have hpos := pow10_pos k
  rw [dropDigits, divHalfEven, h.mod hk, if_neg (by omega)]

theorem IsWhole.roundWide (h : m.IsWhole n) :
    m.roundWide.IsWhole n ∧ m.roundWide.coefficient ≤ m.coefficient ∧
      m.roundWide.scale ≤ Width.wide.scale := by
  fun_induction Magnitude.roundWide m with
  | case1 m hscale => exact ⟨h, Nat.le_refl _, hscale⟩
  | case2 m hscale ih =>
    have hk : min (m.scale - Width.wide.scale) 9 ≤ m.scale := by omega
    rw [h.dropDigits_eq hk] at ih ⊢
    obtain ⟨hwhole, hle, hscale'⟩ := ih (h.div hk)
    exact ⟨hwhole, Nat.le_trans hle (Nat.div_le_self _ _), hscale'⟩

end Magnitude

namespace Width

variable {w : Width} {m q : Magnitude} {n r s t : Nat} {m? : Option Magnitude}

/-- The whole number is kept, with at most `s` fraction digits; it is refused only if it is too
long itself. -/
structure Keeps (w : Width) (n s : Nat) (m? : Option Magnitude) : Prop where
  whole : ∀ q ∈ m?, q.IsWhole n
  short : ∀ q ∈ m?, q.coefficient < pow2 w.bits
  scale_le : ∀ q ∈ m?, q.scale ≤ s
  isSome : n < pow2 w.bits → m?.isSome

theorem Keeps.mono {s' : Nat} (h : w.Keeps n s m?) (hs : s ≤ s') : w.Keeps n s' m? :=
  ⟨h.whole, h.short, fun q hq => Nat.le_trans (h.scale_le q hq) hs, h.isSome⟩

theorem keeps_some (hm : m.IsWhole n) (hshort : m.coefficient < pow2 w.bits) :
    w.Keeps n m.scale (some m) := by
  refine ⟨?_, ?_, ?_, fun _ => rfl⟩ <;> rintro _ ⟨⟩
  · exact hm
  · exact hshort
  · exact Nat.le_refl _

theorem keeps_none (h : pow2 w.bits ≤ n) : w.Keeps n s none :=
  ⟨by simp, by simp, by simp, fun hlt => absurd hlt (Nat.not_lt_of_le h)⟩

/-- Groups of zeros are cut off, whatever their sizes. -/
theorem keeps_cut? (hm : m.IsWhole n) (ht : t ≤ m.scale)
    (hlast : t = 0 → r = 0 ∧ m.coefficient < pow2 w.bits) :
    w.Keeps n (m.scale - t) (w.cut? m r t) := by
  fun_induction Width.cut? w m r t with
  | case1 m r =>
    obtain ⟨rfl, hshort⟩ := hlast rfl
    have hsettle : w.settle? m 0 = some m := if_neg (by simp [roundsUp])
    rw [hsettle]
    exact keeps_some hm hshort
  | case2 m r t hne k rest hlong hscale =>
    have hk : k ≤ m.scale := Nat.le_trans (Nat.min_le_left _ _) ht
    have hrest : rest.IsWhole n := hm.div hk
    rw [Magnitude.IsWhole, hscale, pow10_zero, Nat.mul_one] at hrest
    exact keeps_none (hrest ▸ hlong.1)
  | case3 m r t hne k rest hlong hscale ih =>
    have hk : k ≤ m.scale := Nat.le_trans (Nat.min_le_left _ _) ht
    refine (ih (hm.div hk) (Nat.pos_of_ne_zero hscale) (by omega)).mono ?_
    show m.scale - k - 1 ≤ m.scale - t
    omega
  | case4 m r t hne k rest hcontinue ih =>
    have hk : k ≤ m.scale := Nat.le_trans (Nat.min_le_left _ _) ht
    have hkt : k ≤ t := Nat.min_le_left _ _
    refine (ih (hm.div hk) ?_ fun hzero => ⟨hm.mod hk, ?_⟩).mono ?_
    · show t - k ≤ m.scale - k
      omega
    · exact Nat.lt_of_not_le fun hlong => hcontinue ⟨hlong, by omega⟩
    · show m.scale - k - (t - k) ≤ m.scale - t
      omega

theorem surplus_eq_zero (h : w.surplus m = 0) : m.coefficient < pow2 w.bits := by
  by_contra hlong
  have hdigits : 0 < w.excessDigits m.coefficient := by
    rw [excessDigits, if_neg hlong]
    exact Nat.succ_pos _
  unfold surplus at h
  dsimp only at h
  split at h <;> omega

theorem sub_surplus_le (w : Width) (m : Magnitude) : m.scale - w.surplus m ≤ w.scale := by
  unfold surplus
  dsimp only
  split <;> omega

theorem keeps_reduce? (hm : m.IsWhole n) (hsurplus : w.surplus m ≤ m.scale) :
    w.Keeps n w.scale (w.reduce? m) := by
  rw [reduce?, if_pos hsurplus]
  exact (keeps_cut? hm hsurplus fun hzero => ⟨rfl, surplus_eq_zero hzero⟩).mono
    (sub_surplus_le w m)

/-- A whole number is cut to the width, or refused. -/
theorem reduce?_whole (hm : m.IsWhole n) (h : w.reduce? m = some q) : q.IsWhole n ∧ w.Holds q := by
  have hsurplus : w.surplus m ≤ m.scale := by
    by_contra hlt
    rw [reduce?, if_neg hlt] at h
    cases h
  have hkeeps := keeps_reduce? hm hsurplus
  exact ⟨hkeeps.whole q h, hkeeps.short q h, hkeeps.scale_le q h⟩

/-- The estimate for the digits in excess does not exceed the zeros that a one is written with. -/
theorem surplus_le_of_isWhole_one (hm : m.IsWhole 1) (hscale : m.scale ≤ 114) (hbits : 96 ≤ w.bits) :
    w.surplus m ≤ m.scale := by
  -- four bits for a digit are too many, but the first 96 bits are not counted
  have hlog : m.coefficient.log2 ≤ 4 * m.scale := by
    rw [hm, Nat.one_mul]
    have hlt : pow10 m.scale < 2 ^ (4 * m.scale + 1) := by
      rw [Nat.pow_succ, Nat.pow_mul]
      have : pow10 m.scale ≤ (2 ^ 4) ^ m.scale := Nat.pow_le_pow_left (by decide) _
      have := pow10_pos m.scale
      omega
    exact Nat.le_of_lt_succ ((Nat.log2_lt (pow10_pos _).ne').mpr hlt)
  have hdigits : w.excessDigits m.coefficient ≤ m.scale := by
    unfold excessDigits
    split
    next => exact Nat.zero_le _
    next hlong =>
      have hpos : m.scale ≠ 0 := by
        intro hzero
        rw [hm, hzero] at hlong
        exact hlong (Nat.one_lt_two_pow (by omega))
      omega
  unfold surplus
  dsimp only
  split <;> omega

theorem exists_reduce? (hm : m.IsWhole 1) (hscale : m.scale ≤ 114) (hbits : 96 ≤ w.bits) :
    ∃ q, w.reduce? m = some q :=
  Option.isSome_iff_exists.mp ((keeps_reduce? hm (surplus_le_of_isWhole_one hm hscale hbits)).isSome
    (Nat.one_lt_two_pow (by omega)))

end Width

namespace Magnitude

variable {m x q : Magnitude} {n k : Nat}

/-! ## Products -/

/-- A product of whole numbers is exact, or refused. -/
theorem mulWide?_whole (hm : m.IsWhole n) (hx : x.IsWhole k) (h : m.mulWide? x = some q) :
    q.IsWhole (n * k) ∧ Width.wide.Holds q := by
  have hproduct := hm.mul hx
  unfold mulWide? at h
  dsimp only at h
  split_ifs at h with hzero hshort
  · cases h
    have hnk : n * k = 0 := by
      rwa [Nat.mul_eq_zero, hm.coefficient_eq_zero_iff, hx.coefficient_eq_zero_iff]
    exact ⟨hnk ▸ isWhole_zero, by decide⟩
  · cases h
    obtain ⟨hwhole, hle, hscale⟩ := hproduct.roundWide
    exact ⟨hwhole, Nat.lt_of_le_of_lt hle hshort, hscale⟩
  · exact Width.reduce?_whole hproduct h

/-- Nothing and one are never refused. -/
theorem exists_mulWide? (hm : m.IsWhole n) (hx : x.IsWhole k) (hnk : n * k ≤ 1)
    (hms : m.scale ≤ Width.wide.scale) (hxs : x.scale ≤ Width.wide.scale) :
    ∃ q, m.mulWide? x = some q := by
  have hproduct := hm.mul hx
  unfold mulWide?
  dsimp only
  split_ifs with hzero
  · exact ⟨_, rfl⟩
  · exact ⟨_, rfl⟩
  · have hpos : 0 < n * k := by
      rw [← hm.coefficient_eq_zero_iff, ← hx.coefficient_eq_zero_iff, ← Nat.mul_eq_zero] at hzero
      exact Nat.pos_of_ne_zero hzero
    rw [Nat.le_antisymm hnk hpos] at hproduct
    have hscale : m.scale + x.scale ≤ 114 := Nat.add_le_add hms hxs
    exact Width.exists_reduce? hproduct hscale (by decide)

theorem narrow?_whole (hm : m.IsWhole n) (h : m.narrow? = some q) : q.IsWhole n ∧ q.Fits := by
  unfold narrow? at h
  split at h
  next hfits =>
    cases h
    exact ⟨hm, hfits⟩
  next => exact Width.reduce?_whole hm h

theorem exists_narrow? (hm : m.IsWhole 1) (hscale : m.scale ≤ Width.wide.scale) :
    ∃ q, m.narrow? = some q := by
  unfold narrow?
  split
  · exact ⟨_, rfl⟩
  · exact Width.exists_reduce? hm (Nat.le_trans hscale (by decide)) (by decide)

end Magnitude

end Calculator
