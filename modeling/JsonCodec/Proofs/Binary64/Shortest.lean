import Mathlib
import JsonCodec.Binary64.Shortest
import JsonCodec.Proofs.Binary64.Reading

set_option autoImplicit false

namespace JsonCodec.Binary64

def Scientific.number (d : Scientific) : ℚ := d.digits * (10 : ℚ) ^ d.exponent

theorem Scientific.number_nonneg (d : Scientific) : 0 ≤ d.number := by
  unfold number
  positivity

theorem readsBack_iff (x : Binary64) (d : Scientific) :
    readsBack x d = true ↔ nearest false d.number = x := by
  rw [readsBack, beq_iff_eq, ofDecimal_eq, Scientific.number]

theorem digitCount_spec {n : Nat} (hn : n ≠ 0) :
    10 ^ (digitCount n - 1) ≤ n ∧ n < 10 ^ digitCount n ∧ 1 ≤ digitCount n := by
  rw [digitCount, if_neg hn]
  have hpos : 0 < (Nat.toDigits 10 n).length := Nat.length_toDigits_pos
  refine ⟨?_, (Nat.length_toDigits_le_iff (by decide) hpos).1 le_rfl, hpos⟩
  rcases Nat.eq_zero_or_pos ((Nat.toDigits 10 n).length - 1) with h | h
  · rw [h]
    omega
  · by_contra hlt
    have := (Nat.length_toDigits_le_iff (by decide) h).2 (Nat.lt_of_not_le hlt)
    omega

theorem leadingExponent_le {num den : Nat} (hn : 0 < num) (hd : 0 < den) :
    (10 : ℚ) ^ leadingExponent num den ≤ (num : ℚ) / den := by
  have hn' : (0 : ℚ) < num := Nat.cast_pos.2 hn
  have hd' : (0 : ℚ) < den := Nat.cast_pos.2 hd
  unfold leadingExponent
  split_ifs with h
  · obtain ⟨hlow, -, hpos⟩ := digitCount_spec (Nat.div_pos h hd).ne'
    have hexp : (digitCount (num / den) : Int) - 1 = (digitCount (num / den) - 1 : Nat) := by omega
    rw [hexp, zpow_natCast, le_div_iff₀ hd']
    exact_mod_cast (Nat.mul_le_mul_right den hlow).trans (Nat.div_mul_le_self num den)
  · obtain ⟨-, hhigh, -⟩ := digitCount_spec (Nat.div_pos (show num ≤ den - 1 by omega) hn).ne'
    have hlt : den ≤ num * 10 ^ digitCount ((den - 1) / num) := by
      rw [Nat.div_lt_iff_lt_mul hn, Nat.mul_comm] at hhigh
      omega
    rw [zpow_neg, zpow_natCast, inv_le_comm₀ (by positivity) (by positivity), inv_div,
      div_le_iff₀ hn']
    rw [Nat.mul_comm] at hlt
    exact_mod_cast hlt

theorem scaleDown_spec (num : Nat) {den : Nat} (hd : 0 < den) (e : Int) :
    0 < (scaleDown num den e).2 ∧
      ((scaleDown num den e).1 : ℚ) / (scaleDown num den e).2 = (num : ℚ) / den / (10 : ℚ) ^ e := by
  cases e with
  | ofNat e =>
    refine ⟨Nat.mul_pos hd (Nat.pow_pos (by decide)), ?_⟩
    simp only [scaleDown, Decimal.powerOfTen_eq, Int.ofNat_eq_natCast, zpow_natCast]
    push_cast
    rw [div_div]
  | negSucc e =>
    refine ⟨hd, ?_⟩
    simp only [scaleDown, Decimal.powerOfTen_eq, zpow_negSucc]
    push_cast
    rw [div_inv_eq_mul, div_mul_eq_mul_div]

theorem readsBack_of_neighbour? {x : Binary64} {e : Int} {d : Scientific}
    (h : neighbour? x e = some d) : readsBack x d = true := by
  simp only [neighbour?] at h
  split at h
  · rename_i hbelow habove
    obtain rfl := Option.some.inj h
    split_ifs
    · exact hbelow
    · exact habove
  · rename_i hbelow _
    obtain rfl := Option.some.inj h
    exact hbelow
  · rename_i _ habove
    obtain rfl := Option.some.inj h
    exact habove
  · cases h

theorem isSome_neighbour? {x : Binary64} {e : Int}
    (h : readsBack x ⟨(scaleDown x.units one e).1 / (scaleDown x.units one e).2, e⟩ = true ∨
      readsBack x ⟨(scaleDown x.units one e).1 / (scaleDown x.units one e).2 + 1, e⟩ = true) :
    (neighbour? x e).isSome = true := by
  simp only [neighbour?]
  split
  · rfl
  · rfl
  · rfl
  · rename_i hbelow habove
    rw [hbelow, habove] at h
    simp at h

theorem nearest_of_near {x : Binary64} (hx : x.isFinite = true) (hs : x.isNegative = false)
    (h0 : x.magnitude ≠ 0) {q : ℚ} (hq : 0 ≤ q)
    (h : |q - x.units / one| * 2 ^ 54 < x.units / one) : nearest false q = x := by
  have hone := cast_one_pos
  have hm : x.magnitude < infiniteMagnitude := by simpa [isFinite] using hx
  have hscale : |q * one - unitsOf x.magnitude| = |q - x.units / one| * one := by
    rw [← units_eq, ← abs_of_pos hone, ← abs_mul, abs_of_pos hone, sub_mul,
      div_mul_cancel₀ _ cast_one_ne_zero]
  have hr : Rounds (q * one) x.magnitude := by
    apply rounds_of_near h0
    rw [hscale, ← units_eq, mul_right_comm]
    exact (lt_div_iff₀ hone).1 h
  rw [nearest_eq_of_rounds false hq hr, min_eq_left hm.le, ← hs, ofMagnitude_eq]

/-- Half a step is close if the double has seventeen digits before the step. -/
theorem near_of_half {c r step : ℚ} (hs : 0 < step) (hc : |c - r| ≤ 1 / 2)
    (hr : step * 10 ^ 16 ≤ r * step) : |c * step - r * step| * 2 ^ 54 < r * step := by
  rw [← sub_mul, abs_mul, abs_of_pos hs]
  calc |c - r| * step * 2 ^ 54 ≤ 1 / 2 * step * 2 ^ 54 := by gcongr
    _ < step * 10 ^ 16 := by
      rw [mul_comm (1 / 2 : ℚ), mul_assoc]
      exact mul_lt_mul_of_pos_left (by norm_num) hs
    _ ≤ r * step := hr

theorem isSome_neighbour?_of_le {x : Binary64} (hx : x.isFinite = true) (hs : x.isNegative = false)
    (h0 : x.magnitude ≠ 0) {e : Int} (he : (10 : ℚ) ^ (e + 16) ≤ x.units / one) :
    (neighbour? x e).isSome = true := by
  have h10 : (0 : ℚ) < 10 ^ e := by positivity
  obtain ⟨hden, hquot⟩ := scaleDown_spec x.units one_pos e
  have hr : (x.units / one : ℚ) =
      ((scaleDown x.units one e).1 : ℚ) / (scaleDown x.units one e).2 * 10 ^ e := by
    rw [hquot, div_mul_cancel₀ _ h10.ne']
  have hsplit : (10 : ℚ) ^ (e + 16) = 10 ^ e * 10 ^ 16 := by
    rw [zpow_add₀ (by norm_num)]
    norm_cast
  have hdiv := Nat.div_add_mod (scaleDown x.units one e).1 (scaleDown x.units one e).2
  have hmod := Nat.mod_lt (scaleDown x.units one e).1 hden
  apply isSome_neighbour?
  rw [readsBack_iff, readsBack_iff]
  rw [hsplit, hr] at he
  generalize (scaleDown x.units one e).1 = num at *
  generalize (scaleDown x.units one e).2 = den at *
  have hden' : (0 : ℚ) < den := Nat.cast_pos.2 hden
  have hrest : (num : ℚ) / den = (num / den : Nat) + (num % den : Nat) / den := by
    rw [div_eq_iff hden'.ne', add_mul, div_mul_cancel₀ _ hden'.ne']
    exact_mod_cast (by rw [mul_comm, hdiv] : num = num / den * den + num % den)
  have hread {c : Nat} (hc : |(c : ℚ) - num / den| ≤ 1 / 2) :
      nearest false (Scientific.number ⟨c, e⟩) = x := by
    apply nearest_of_near hx hs h0 (Scientific.number_nonneg _)
    rw [hr, Scientific.number]
    exact near_of_half h10 hc he
  -- the remainder tells which of the two is at most half a step away
  rcases Nat.lt_or_ge den (2 * (num % den)) with hfar | hclose
  · refine .inr (hread ?_)
    have hlow : (1 / 2 : ℚ) ≤ (num % den : Nat) / den := by
      rw [le_div_iff₀ hden', div_mul_eq_mul_div, one_mul, div_le_iff₀ (by norm_num)]
      exact_mod_cast (by omega : den ≤ num % den * 2)
    have hhigh : ((num % den : Nat) / den : ℚ) ≤ 1 := by
      rw [div_le_one hden']
      exact_mod_cast hmod.le
    rw [hrest, abs_le]
    push_cast
    constructor <;> linarith
  · refine .inl (hread ?_)
    have hlow : (0 : ℚ) ≤ (num % den : Nat) / den := by positivity
    have hhigh : ((num % den : Nat) / den : ℚ) ≤ 1 / 2 := by
      rw [div_le_iff₀ hden', div_mul_eq_mul_div, one_mul, le_div_iff₀ (by norm_num)]
      exact_mod_cast (by omega : num % den * 2 ≤ den)
    rw [hrest, abs_le]
    constructor <;> linarith

theorem number_trim (fuel : Nat) (d : Scientific) : (d.trim fuel).number = d.number := by
  induction fuel generalizing d with
  | zero => rfl
  | succ fuel ih =>
    unfold Scientific.trim
    split_ifs with h
    · have hdigits : d.digits / 10 * 10 = d.digits := Nat.div_mul_cancel (Nat.dvd_of_mod_eq_zero h)
      rw [ih, Scientific.number, Scientific.number, ← hdigits, zpow_add₀ (by norm_num), zpow_one,
        Nat.mul_div_cancel _ (by decide)]
      push_cast
      ring
    · rfl

theorem units_pos {x : Binary64} (h0 : x.magnitude ≠ 0) : 0 < x.units := by
  have hu0 : unitsOf 0 = 0 := by decide
  rw [units_eq, ← hu0]
  exact strictMono_unitsOf (Nat.pos_of_ne_zero h0)

/-- One of the seventeen grids has the decimal that trailing zeros are dropped from. -/
theorem exists_neighbour {x : Binary64} (hx : x.isFinite = true) (hs : x.isNegative = false)
    (h0 : x.magnitude ≠ 0) :
    ∃ places : Nat, places < 17 ∧ ∃ d,
      neighbour? x (leadingExponent x.units one - places) = some d ∧ shortest x = d.trim 17 := by
  have hlast : (neighbour? x (leadingExponent x.units one - (16 : Nat))).isSome = true := by
    refine isSome_neighbour?_of_le hx hs h0 ?_
    rw [Nat.cast_ofNat, sub_add_cancel]
    exact leadingExponent_le (units_pos h0) one_pos
  obtain ⟨d, hd⟩ : ∃ d, ((List.range 17).map fun places : Nat =>
      leadingExponent x.units one - places).findSome? (neighbour? x) = some d := by
    rw [← Option.isSome_iff_exists, List.findSome?_isSome_iff]
    exact ⟨_, List.mem_map.2 ⟨16, by decide, rfl⟩, hlast⟩
  obtain ⟨e, hmem, he⟩ := List.exists_of_findSome?_eq_some hd
  obtain ⟨places, hplaces, rfl⟩ := List.mem_map.1 hmem
  refine ⟨places, List.mem_range.1 hplaces, d, he, ?_⟩
  unfold shortest
  simp only [hd, Option.getD_some]

theorem nearest_shortest {x : Binary64} (hx : x.isFinite = true) (hs : x.isNegative = false)
    (h0 : x.magnitude ≠ 0) : nearest false (shortest x).number = x := by
  obtain ⟨places, -, d, hd, hshortest⟩ := exists_neighbour hx hs h0
  rw [hshortest, number_trim]
  exact (readsBack_iff x d).1 (readsBack_of_neighbour? hd)

end JsonCodec.Binary64
