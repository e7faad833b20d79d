import Mathlib
import JsonCodec.Proofs.Binary64.Text
import JsonCodec.Proofs.Decimal.Numerals

set_option autoImplicit false

namespace JsonCodec.Binary64

theorem lt_leadingExponent {num den : Nat} (hn : 0 < num) (hd : 0 < den) :
    (num : ℚ) / den < (10 : ℚ) ^ (leadingExponent num den + 1) := by
  have hd' : (0 : ℚ) < den := Nat.cast_pos.2 hd
  unfold leadingExponent
  split_ifs with h
  · obtain ⟨-, hhigh, -⟩ := digitCount_spec (Nat.div_pos h hd).ne'
    rw [sub_add_cancel, zpow_natCast, div_lt_iff₀ hd']
    exact_mod_cast (Nat.div_lt_iff_lt_mul hd).1 hhigh
  · obtain ⟨hlow, -, hpos⟩ :=
      digitCount_spec (Nat.div_pos (show num ≤ den - 1 by omega) hn).ne'
    have hexp : -(digitCount ((den - 1) / num) : Int) + 1 =
        -((digitCount ((den - 1) / num) - 1 : Nat) : Int) := by omega
    have hlt : 10 ^ (digitCount ((den - 1) / num) - 1) * num < den := by
      have := (Nat.le_div_iff_mul_le hn).1 hlow
      omega
    rw [hexp, zpow_neg, zpow_natCast, div_lt_iff₀ hd', ← div_eq_inv_mul,
      lt_div_iff₀ (by positivity), mul_comm]
    exact_mod_cast hlt

theorem neighbour?_spec {x : Binary64} {e : Int} {d : Scientific} (h : neighbour? x e = some d) :
    d.exponent = e ∧
      d.digits ≤ (scaleDown x.units one e).1 / (scaleDown x.units one e).2 + 1 := by
  simp only [neighbour?] at h
  split at h
  · obtain rfl := Option.some.inj h
    split_ifs
    · exact ⟨rfl, Nat.le_succ _⟩
    · exact ⟨rfl, le_rfl⟩
  · obtain rfl := Option.some.inj h
    exact ⟨rfl, Nat.le_succ _⟩
  · obtain rfl := Option.some.inj h
    exact ⟨rfl, le_rfl⟩
  · cases h

theorem trim_spec (fuel : Nat) (d : Scientific) :
    (d.trim fuel).digits ≤ d.digits ∧ d.exponent ≤ (d.trim fuel).exponent ∧
      (d.trim fuel).exponent ≤ d.exponent + fuel := by
  induction fuel generalizing d with
  | zero => simp [Scientific.trim]
  | succ fuel ih =>
    rw [Scientific.trim]
    split_ifs
    · obtain ⟨hdigits, hlow, hhigh⟩ := ih ⟨d.digits / 10, d.exponent + 1⟩
      simp only at hdigits hlow hhigh
      push_cast
      omega
    · push_cast
      omega

structure Scientific.Fits (d : Scientific) (x : Binary64) : Prop where
  digits : d.digits ≤ 10 ^ 17
  lower : -340 ≤ d.exponent
  upper : d.exponent ≤ 325
  number : (x.units : ℚ) / one < 10 ^ (d.exponent + 17)

theorem leadingExponent_bounds {x : Binary64} (hx : x.isFinite = true) (h0 : x.magnitude ≠ 0) :
    -324 ≤ leadingExponent x.units one ∧ leadingExponent x.units one ≤ 308 := by
  have hpos := units_pos h0
  have hlow := leadingExponent_le hpos one_pos
  have hhigh := lt_leadingExponent hpos one_pos
  have hleast : (10 : ℚ) ^ (-324 : Int) < x.units / one := by
    have hone : (one : ℚ) < 10 ^ 324 := by
      have hnat : one < 10 ^ 324 := by decide +kernel
      exact_mod_cast hnat
    have hunit : (1 : ℚ) ≤ x.units := Nat.one_le_cast.2 hpos
    calc (10 : ℚ) ^ (-324 : Int) = 1 / 10 ^ 324 := by norm_num
      _ < 1 / one := one_div_lt_one_div_of_lt cast_one_pos hone
      _ ≤ x.units / one := div_le_div_of_nonneg_right hunit cast_one_pos.le
  have hmost : (x.units : ℚ) / one < 10 ^ (309 : Int) := by
    have hm : x.magnitude < infiniteMagnitude := by simpa [isFinite] using hx
    have hunits : x.units < 2 ^ 1024 * one := by
      have hlt := strictMono_unitsOf hm
      have hsum : 53 + 2045 = 1024 + 1074 := rfl
      rwa [unitsOf_infinite, ← pow_add, hsum, pow_add, ← one_eq] at hlt
    rw [div_lt_iff₀ cast_one_pos]
    calc (x.units : ℚ) < 2 ^ 1024 * one := by exact_mod_cast hunits
      _ ≤ 10 ^ (309 : Int) * one := by
        have hpow : 2 ^ 1024 ≤ 10 ^ 309 := by decide +kernel
        refine mul_le_mul_of_nonneg_right ?_ cast_one_pos.le
        exact_mod_cast hpow
  have hten : (1 : ℚ) < 10 := by norm_num
  have h₁ := (zpow_lt_zpow_iff_right₀ hten).1 (hleast.trans hhigh)
  have h₂ := (zpow_lt_zpow_iff_right₀ hten).1 (hlow.trans_lt hmost)
  omega

theorem fits_shortest {x : Binary64} (hx : x.isFinite = true) (hs : x.isNegative = false)
    (h0 : x.magnitude ≠ 0) : (shortest x).Fits x := by
  obtain ⟨places, hplaces, d, hd, hshortest⟩ := exists_neighbour hx hs h0
  obtain ⟨hlow, hhigh⟩ := leadingExponent_bounds hx h0
  obtain ⟨hexp, hdigits⟩ := neighbour?_spec hd
  obtain ⟨htrim, hless, hmore⟩ := trim_spec 17 d
  obtain ⟨hden, hquot⟩ := scaleDown_spec x.units one_pos
    (leadingExponent x.units one - (places : Int))
  have hten : (1 : ℚ) < 10 := by norm_num
  have hlt : (x.units : ℚ) / one < 10 ^ (d.exponent + 17) :=
    (lt_leadingExponent (units_pos h0) one_pos).trans_le
      (zpow_le_zpow_right₀ hten.le (by omega))
  have hfloor : (scaleDown x.units one (leadingExponent x.units one - (places : Int))).1 /
      (scaleDown x.units one (leadingExponent x.units one - (places : Int))).2 < 10 ^ 17 := by
    rw [← hexp] at hden hquot ⊢
    rw [Nat.div_lt_iff_lt_mul hden]
    have hscaled : ((scaleDown x.units one d.exponent).1 : ℚ) /
        (scaleDown x.units one d.exponent).2 < 10 ^ 17 := by
      rw [hquot, div_lt_iff₀ (by positivity)]
      refine hlt.trans_eq ?_
      rw [zpow_add₀ (by norm_num), mul_comm]
      norm_cast
    rw [div_lt_iff₀ (Nat.cast_pos.2 hden)] at hscaled
    exact_mod_cast hscaled
  rw [hshortest]
  refine ⟨by omega, by omega, by omega, hlt.trans_le (zpow_le_zpow_right₀ hten.le (by omega))⟩

theorem length_withPoint_le {digits : Bytes} {places : Nat} :
    (withPoint digits places).length ≤ max (digits.length + 1) (places + 2) := by
  unfold withPoint
  split_ifs with h
  · simp
    omega
  · simp
    omega

theorem length_exponentText_le {e : Int} (h : e.natAbs < 1000) : (exponentText e).length ≤ 5 := by
  have hlen := Decimal.length_ofNat_le (k := 3) (by decide) h
  unfold exponentText
  simp only [List.length_cons]
  split_ifs with hshort
  · simp
    omega
  · omega

theorem length_scientificText_le {d : Scientific} (hd : d.digits < 10 ^ 18)
    (he : -340 ≤ d.exponent ∧ d.exponent ≤ 325) : (scientificText d).length ≤ 24 := by
  have hlen := Decimal.length_ofNat_le (k := 18) (by decide) hd
  have hdrop : ((Decimal.ofNat d.digits).drop 1).length ≤ 17 := by
    rw [List.length_drop]
    omega
  have hexp := length_exponentText_le
    (e := d.exponent + ((Decimal.ofNat d.digits).drop 1).length) (by omega)
  have htake := List.length_take_le 1 (Decimal.ofNat d.digits)
  unfold scientificText
  simp only [List.length_append]
  split_ifs
  · simp only [List.length_nil]
    omega
  · rw [List.length_cons]
    omega

theorem length_shortestText_le {x : Binary64} (hx : x.isFinite = true) (hs : x.isNegative = false)
    (h0 : x.magnitude ≠ 0) : (shortestText x).length ≤ 24 := by
  have hfits := fits_shortest hx hs h0
  have hdigits : (shortest x).digits < 10 ^ 18 := hfits.digits.trans_lt (by norm_num)
  have hlen := Decimal.length_ofNat_le (k := 18) (by decide) hdigits
  rw [shortestText]
  split_ifs with hp
  · have hrange : -(((Decimal.ofNat (shortest x).digits).length : Int) + 3) ≤
        (shortest x).exponent ∧ (shortest x).exponent ≤ 5 := by
      simp only [isPositional] at hp
      split_ifs at hp with hlone
      · simp at hp
        omega
      · simp at hp
        omega
    cases he : (shortest x).exponent with
    | ofNat e =>
      cases e with
      | zero =>
        change (Decimal.ofNat (shortest x).digits).length ≤ 24
        omega
      | succ e =>
        change (Decimal.ofNat (x.units / one)).length ≤ 24
        have hlt : (x.units : ℚ) / one < 10 ^ (22 : Int) :=
          hfits.number.trans_le (zpow_le_zpow_right₀ (by norm_num) (by omega))
        have hwhole : x.units / one < 10 ^ 22 := by
          rw [div_lt_iff₀ cast_one_pos] at hlt
          rw [Nat.div_lt_iff_lt_mul one_pos]
          exact_mod_cast hlt
        exact (Decimal.length_ofNat_le (by decide) hwhole).trans (by decide)
    | negSucc e =>
      change (withPoint (Decimal.ofNat (shortest x).digits) (e + 1)).length ≤ 24
      have hform := @length_withPoint_le (Decimal.ofNat (shortest x).digits) (e + 1)
      omega
  · exact length_scientificText_le hdigits ⟨hfits.lower, hfits.upper⟩

end JsonCodec.Binary64
