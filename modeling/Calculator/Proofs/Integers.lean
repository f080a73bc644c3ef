import Mathlib.Data.Int.Bitwise
import Mathlib.Data.Rat.Floor
import Calculator.Arithmetic

/-
  The operators on integers are exact. Each operation on words of 64 bits is
  compared with the same operation on the integers: where the exact result
  fits, the word is that result, and otherwise the operation reports it. The
  exact results are written without any reference to words: quotients as floors
  of rational numbers, bitwise operations on digits without end.

  What is proved:
    1. `floorQuotient_eq`, `floorRemainder_toInt`, `naturalPower_eq`,
       `shiftedLeft_eq`, `shiftedRight_toInt` — each function on words against
       the integers.
    2. `toInt_and`, `toInt_or`, `toInt_xor`, `toInt_not` — the digits of a word
       are those of the integer, its sign repeated.
    3. `integers_exact` — all operators on integers.
-/

namespace Calculator

/-! ## Quotients and remainders -/

/-- The quotient rounded down, from the one rounded towards zero. -/
theorem fdiv_eq_tdiv_correction (a b : Int) (hb : b ≠ 0) :
    a.fdiv b =
      if a.tmod b ≠ 0 ∧ decide (a < 0) ≠ decide (b < 0) then a.tdiv b - 1 else a.tdiv b := by
  rw [Int.fdiv_eq_tdiv]
  simp only [ne_eq, ← Int.dvd_iff_tmod_eq_zero]
  by_cases hdvd : b ∣ a
  · simp [hdvd]
  · rcases Int.lt_or_gt_of_ne hb with hneg | hpos
    · have hsign := Int.sign_eq_neg_one_of_neg hneg
      by_cases ha : 0 ≤ a
      · simp [hdvd, ha, hneg, Int.not_le.mpr hneg]
      · simp [hdvd, ha, hneg, Int.not_le.mpr hneg, hsign, Int.not_le.mp ha]
    · have hsign := Int.sign_eq_one_of_pos hpos
      by_cases ha : 0 ≤ a
      · simp [hdvd, ha, Int.le_of_lt hpos, Int.not_lt.mpr ha, Int.not_lt.mpr (Int.le_of_lt hpos)]
      · simp [hdvd, ha, Int.le_of_lt hpos, hsign, Int.not_le.mp ha]

/-- A remainder of the division towards zero is on the dividend's side. -/
theorem tmod_neg_iff {a b : Int} (h : a.tmod b ≠ 0) : a.tmod b < 0 ↔ a < 0 := by
  rcases Int.le_total 0 a with ha | ha
  · have hrest := Int.tmod_nonneg b ha
    omega
  · have hrest := Int.tmod_nonneg b (Int.neg_nonneg_of_nonpos ha)
    rw [Int.neg_tmod] at hrest
    have hne : a ≠ 0 := by
      intro hzero
      apply h
      rw [hzero, Int.zero_tmod]
    omega

/-- The remainder on the divisor's side, from the one on the dividend's. -/
theorem fmod_eq_tmod_correction (a b : Int) (hb : b ≠ 0) :
    a.fmod b =
      if a.tmod b ≠ 0 ∧ decide (a.tmod b < 0) ≠ decide (b < 0) then a.tmod b + b
      else a.tmod b := by
  have hquot := fdiv_eq_tdiv_correction a b hb
  have hfloor := Int.fmod_def a b
  have htrunc := Int.tmod_def a b
  by_cases hrest : a.tmod b ≠ 0 ∧ decide (a < 0) ≠ decide (b < 0)
  · rw [if_pos hrest] at hquot
    rw [if_pos (by simpa only [tmod_neg_iff hrest.1] using hrest), hfloor, hquot, htrunc]
    rw [Int.mul_sub, Int.mul_one]
    omega
  · rw [if_neg hrest] at hquot
    rw [hfloor, hquot, ← htrunc]
    by_cases hzero : a.tmod b = 0
    · simp [hzero]
    · rw [if_neg (by simpa only [tmod_neg_iff hzero] using hrest)]

/-- The quotient rounded down is the floor of the rational one. -/
theorem floor_div_eq_fdiv (a b : Int) : ⌊(a / b : ℚ)⌋ = a.fdiv b := by
  have nonneg (a b : Int) (hb : 0 ≤ b) : ⌊(a / b : ℚ)⌋ = a.fdiv b := by
    obtain ⟨n, rfl⟩ := Int.eq_ofNat_of_zero_le hb
    rw [Int.cast_natCast, Rat.floor_intCast_div_natCast, Int.fdiv_eq_ediv_of_nonneg a hb]
  rcases Int.le_total 0 b with hb | hb
  · exact nonneg a b hb
  · -- both signs are turned
    have hturned := nonneg (-a) (-b) (Int.neg_nonneg_of_nonpos hb)
    rwa [Int.cast_neg, Int.cast_neg, neg_div_neg_eq, Int.neg_fdiv_neg] at hturned

/-! ## Words -/

/-- The integers that are words. -/
def Fits (n : Int) : Prop := -2 ^ 63 ≤ n ∧ n < 2 ^ 63

theorem fits_toInt (n : Int64) : Fits n.toInt := ⟨Int64.le_toInt n, Int64.toInt_lt n⟩

theorem checked_of_fits {n : Int} (h : Fits n) : checked n = some (Int64.ofInt n) :=
  checked_eq_some_iff.mpr (Int64.toInt_ofInt_of_le h.1 h.2)

theorem checked_of_not_fits {n : Int} (h : ¬ Fits n) : checked n = none := by
  rw [checked_eq_none_iff, Int64.toInt_minValue, Int64.toInt_maxValue]
  unfold Fits at h
  omega

theorem checked_toInt (n : Int64) : checked n.toInt = some n := checked_eq_some_iff.mpr rfl

/-- Where a result fits, working modulo the number of words changes nothing. -/
theorem bmod_of_fits {n : Int} (h : Fits n) : n.bmod (2 ^ 64) = n :=
  Int.bmod_eq_of_le (by have := h.1; omega) (by have := h.2; omega)

theorem toInt_eq_zero_iff {n : Int64} : n.toInt = 0 ↔ n = 0 := by
  rw [← Int64.toInt_zero, Int64.toInt_inj]

theorem neg_iff (n : Int64) : n < 0 ↔ n.toInt < 0 := Int64.lt_iff_toInt_lt

/-! ## Division -/

/-- A quotient that leaves a remainder is at most half the dividend, so it is a
    word and there is one below it. -/
theorem fits_quotient {a b : Int64} (hb : b.toInt ≠ 0) (hrest : a.toInt.tmod b.toInt ≠ 0) :
    Fits (a.toInt.tdiv b.toInt) ∧ Fits (a.toInt.tdiv b.toInt - 1) := by
  have hsize : 2 ≤ b.toInt.natAbs := by
    by_cases hone : b.toInt.natAbs = 1
    · have hmod := Int.natAbs_tmod a.toInt b.toInt
      rw [hone, Nat.mod_one] at hmod
      exact absurd (Int.natAbs_eq_zero.mp hmod) hrest
    · omega
  have hquot : (a.toInt.tdiv b.toInt).natAbs ≤ a.toInt.natAbs / 2 := by
    rw [Int.natAbs_tdiv]
    exact Nat.div_le_div_left hsize (by decide)
  have ha := fits_toInt a
  unfold Fits at *
  omega

/-- The machine's corrections are made where those of the integers are. -/
theorem correction_iff (a b c : Int64) :
    (a % b != 0 && decide (c < 0) != decide (b < 0)) = true ↔
      a.toInt.tmod b.toInt ≠ 0 ∧ decide (c.toInt < 0) ≠ decide (b.toInt < 0) := by
  rw [Bool.and_eq_true, bne_iff_ne, bne_iff_ne, ne_eq, ← toInt_eq_zero_iff, Int64.toInt_mod]
  simp only [neg_iff]

theorem quotient_sub_one {a b q : Int64} (hb : b ≠ 0)
    (hq : checked (a.toInt.tdiv b.toInt) = some q) (hrest : a % b ≠ 0) :
    (q - 1).toInt = q.toInt - 1 := by
  rw [ne_eq, ← toInt_eq_zero_iff] at hb
  rw [ne_eq, ← toInt_eq_zero_iff, Int64.toInt_mod] at hrest
  have hfits := (fits_quotient hb hrest).2
  rw [← checked_eq_some_iff.mp hq] at hfits
  rw [Int64.toInt_sub, Int64.toInt_one]
  exact bmod_of_fits hfits

theorem floorQuotient_eq {a b : Int64} (hb : b ≠ 0) :
    floorQuotient a b = checked (a.toInt.fdiv b.toInt) := by
  have hne : b.toInt ≠ 0 := mt toInt_eq_zero_iff.mp hb
  rw [fdiv_eq_tdiv_correction _ _ hne]
  unfold floorQuotient
  by_cases hcorrect : (a % b != 0 && decide (a < 0) != decide (b < 0)) = true
  · have hrest := (correction_iff a b a).mp hcorrect
    have hq := checked_of_fits (fits_quotient hne hrest.1).1
    have hbelow := quotient_sub_one hb hq (by simp at hcorrect; exact hcorrect.1)
    rw [if_pos hrest, hq, Option.map_some, if_pos hcorrect, eq_comm, checked_eq_some_iff, hbelow,
      checked_eq_some_iff.mp hq]
  · rw [if_neg (mt (correction_iff a b a).mpr hcorrect)]
    cases hq : checked (a.toInt.tdiv b.toInt) with
    | none => rfl
    | some q => rw [Option.map_some, if_neg hcorrect]

/-- A sum of words on different sides of zero is a word. -/
theorem toInt_add_of_signs {m n : Int64} (h : decide (m < 0) ≠ decide (n < 0)) :
    (m + n).toInt = m.toInt + n.toInt := by
  have hm := fits_toInt m
  have hn := fits_toInt n
  rw [Int64.toInt_add]
  refine bmod_of_fits ?_
  simp only [neg_iff] at h
  unfold Fits at *
  by_cases hneg : n.toInt < 0
  · simp [hneg] at h
    omega
  · simp [hneg] at h
    omega

theorem floorRemainder_toInt {a b : Int64} (hb : b ≠ 0) :
    (floorRemainder a b).toInt = a.toInt.fmod b.toInt := by
  rw [fmod_eq_tmod_correction _ _ (mt toInt_eq_zero_iff.mp hb)]
  have hiff := correction_iff a b (a % b)
  rw [Int64.toInt_mod] at hiff
  unfold floorRemainder
  dsimp only
  by_cases hcorrect : (a % b != 0 && decide (a % b < 0) != decide (b < 0)) = true
  · have hsigns : decide (a % b < 0) ≠ decide (b < 0) := by
      simp at hcorrect
      simpa using hcorrect.2
    rw [if_pos (hiff.mp hcorrect), if_pos hcorrect, toInt_add_of_signs hsigns, Int64.toInt_mod]
  · rw [if_neg (mt hiff.mpr hcorrect), if_neg hcorrect, Int64.toInt_mod]

/-! ## Powers -/

/-- Two and its powers are too large from 2 ^ 64 on. -/
theorem not_fits_pow {base : Int} {n : Nat} (hbase : 2 ≤ base.natAbs) (hn : 64 ≤ n) :
    ¬ Fits (base ^ n) := by
  have hsize : (2 : Nat) ^ 64 ≤ (base ^ n).natAbs := by
    calc (2 : Nat) ^ 64 ≤ 2 ^ n := Nat.pow_le_pow_right (by decide) hn
      _ ≤ base.natAbs ^ n := Nat.pow_le_pow_left hbase n
      _ = (base ^ n).natAbs := (Int.natAbs_pow base n).symm
  unfold Fits
  omega

theorem naturalPower_eq {base exponent : Int64} (h : 0 ≤ exponent.toInt) :
    naturalPower base exponent = checked (base.toInt ^ exponent.toInt.toNat) := by
  unfold naturalPower
  by_cases hsmall : exponent.toInt < UInt32.size
  · rw [if_pos hsmall, checkedPow_eq]
    rfl
  · rw [if_neg hsmall]
    have hlarge : 64 ≤ exponent.toInt.toNat := by
      have : UInt32.size = 4294967296 := rfl
      omega
    by_cases hbase : base = 0 ∨ base = 1
    · rw [if_pos hbase, eq_comm, checked_eq_some_iff]
      rcases hbase with rfl | rfl
      · rw [Int64.toInt_zero, zero_pow (by omega)]
      · rw [Int64.toInt_one, one_pow]
    · rw [if_neg hbase]
      by_cases hneg : base = -1
      · have hparity : exponent % 2 = 0 ↔ Even exponent.toInt.toNat := by
          rw [Nat.even_iff, ← toInt_eq_zero_iff, Int64.toInt_mod, Int.tmod_eq_emod_of_nonneg h]
          show exponent.toInt % 2 = 0 ↔ _
          omega
        rw [if_pos hneg, hneg, eq_comm, checked_eq_some_iff]
        show _ = (-1 : Int) ^ _
        rw [neg_one_pow_eq_ite]
        by_cases heven : exponent % 2 = 0
        · rw [if_pos heven, if_pos (hparity.mp heven)]
          rfl
        · rw [if_neg heven, if_neg (mt hparity.mpr heven)]
          rfl
      · rw [if_neg hneg, checked_of_not_fits (not_fits_pow ?_ hlarge)]
        have hzero : base.toInt ≠ (0 : Int64).toInt := fun h => hbase (.inl (Int64.toInt_inj.mp h))
        have hone : base.toInt ≠ (1 : Int64).toInt := fun h => hbase (.inr (Int64.toInt_inj.mp h))
        have hminus : base.toInt ≠ (-1 : Int64).toInt := fun h => hneg (Int64.toInt_inj.mp h)
        have : (-1 : Int64).toInt = -1 := rfl
        rw [Int64.toInt_zero] at hzero
        rw [Int64.toInt_one] at hone
        omega

/-! ## Shifts -/

theorem count_lt_iff {count : Int64} : 64 ≤ count ↔ 64 ≤ count.toInt := Int64.le_iff_toInt_le

/-- The machine takes a count modulo 64, which leaves one below 64 as it is. -/
theorem toNat_smod_count {count : Int64} (h : 0 ≤ count.toInt) (hlt : count.toInt < 64) :
    (count.toBitVec.smod 64#64).toNat = count.toInt.toNat := by
  have hmod : (count.toBitVec.smod 64#64).toInt = count.toInt := by
    rw [BitVec.toInt_smod, Int64.toInt_toBitVec]
    exact Int.fmod_eq_of_lt h hlt
  rw [BitVec.toInt_eq_toNat_cond] at hmod
  split at hmod
  · omega
  · omega

theorem toInt_shiftLeft {n count : Int64} (h : 0 ≤ count.toInt) (hlt : count.toInt < 64) :
    (n <<< count).toInt = (n.toInt * 2 ^ count.toInt.toNat).bmod (2 ^ 64) := by
  have hword : (n <<< count).toInt =
      (n.toBitVec <<< (count.toBitVec.smod 64#64).toNat).toInt := rfl
  calc (n <<< count).toInt
      = ((n.toBitVec.toNat * 2 ^ count.toInt.toNat : Nat) : Int).bmod (2 ^ 64) := by
        rw [hword, toNat_smod_count h hlt, BitVec.toInt_shiftLeft, Nat.shiftLeft_eq]
    _ = ((n.toBitVec.toNat : Int) * 2 ^ count.toInt.toNat).bmod (2 ^ 64) := by
        rw [Nat.cast_mul, Nat.cast_pow, Nat.cast_ofNat]
    _ = (n.toInt * 2 ^ count.toInt.toNat).bmod (2 ^ 64) := by
        rw [← Int64.toInt_toBitVec n, BitVec.toInt_eq_toNat_bmod n.toBitVec, Int.bmod_mul_bmod]

theorem toInt_shiftRight {n count : Int64} (h : 0 ≤ count.toInt) (hlt : count.toInt < 64) :
    (n >>> count).toInt = n.toInt / 2 ^ count.toInt.toNat := by
  have hword : (n >>> count).toInt =
      (n.toBitVec.sshiftRight' (count.toBitVec.smod 64#64)).toInt := rfl
  rw [hword, BitVec.toInt_sshiftRight', toNat_smod_count h hlt, Int64.toInt_toBitVec,
    Int.shiftRight_eq_div_pow]
  norm_cast

/-- Moving a word back gives it again only if no digit was lost. -/
theorem fits_of_shifted_back {n count : Int64} (h : 0 ≤ count.toInt) (hlt : count.toInt < 64)
    (hback : n <<< count >>> count = n) : Fits (n.toInt * 2 ^ count.toInt.toNat) := by
  have hquot := congrArg Int64.toInt hback
  rw [toInt_shiftRight h hlt] at hquot
  have hpos : (0 : Int) < 2 ^ count.toInt.toNat := by positivity
  have hsmall : (2 : Int) ^ count.toInt.toNat < 2 ^ 64 :=
    pow_lt_pow_right₀ (by decide) (by omega)
  have hdiv := Int.mul_ediv_add_emod (n <<< count).toInt (2 ^ count.toInt.toNat)
  have hrest := Int.emod_nonneg (n <<< count).toInt (ne_of_gt hpos)
  have hbound := Int.emod_lt_of_pos (n <<< count).toInt hpos
  rw [hquot, mul_comm] at hdiv
  -- what the division leaves is a multiple of 2 ^ 64 below 2 ^ 64
  have hmult : (2 : Int) ^ 64 ∣ (n <<< count).toInt - n.toInt * 2 ^ count.toInt.toNat := by
    rw [toInt_shiftLeft h hlt]
    exact Int.dvd_bmod_sub_self
  obtain ⟨k, hk⟩ := hmult
  have hfits := fits_toInt (n <<< count)
  have hexact : n.toInt * 2 ^ count.toInt.toNat = (n <<< count).toInt := by omega
  rwa [hexact]

theorem shiftedLeft_eq {n count : Int64} (h : 0 ≤ count.toInt) :
    shiftedLeft n count = checked (n.toInt * 2 ^ count.toInt.toNat) := by
  unfold shiftedLeft
  by_cases hn : n = 0
  · rw [if_pos hn, hn, Int64.toInt_zero, zero_mul, eq_comm, checked_eq_some_iff]
    rfl
  · rw [if_neg hn]
    by_cases hcount : 64 ≤ count
    · rw [if_pos hcount, checked_of_not_fits]
      have hplaces : 64 ≤ count.toInt.toNat := by
        rw [count_lt_iff] at hcount
        omega
      have hsize : 2 ^ 64 ≤ (n.toInt * 2 ^ count.toInt.toNat).natAbs := by
        have hn : 0 < n.toInt.natAbs := Int.natAbs_pos.mpr (mt toInt_eq_zero_iff.mp hn)
        calc 2 ^ 64 ≤ 2 ^ count.toInt.toNat := Nat.pow_le_pow_right (by decide) hplaces
          _ ≤ n.toInt.natAbs * 2 ^ count.toInt.toNat := Nat.le_mul_of_pos_left _ hn
          _ = (n.toInt * 2 ^ count.toInt.toNat).natAbs := by
            rw [Int.natAbs_mul, Int.natAbs_pow]
            rfl
      unfold Fits
      omega
    · rw [if_neg hcount]
      have hlt : count.toInt < 64 := Int.not_le.mp (mt count_lt_iff.mpr hcount)
      dsimp only
      by_cases hfits : Fits (n.toInt * 2 ^ count.toInt.toNat)
      · have hexact : (n <<< count).toInt = n.toInt * 2 ^ count.toInt.toNat := by
          rw [toInt_shiftLeft h hlt, bmod_of_fits hfits]
        have hback : n <<< count >>> count = n := by
          rw [← Int64.toInt_inj, toInt_shiftRight h hlt, hexact]
          exact Int.mul_ediv_cancel _ (by positivity)
        rw [if_pos hback, eq_comm, checked_eq_some_iff, hexact]
      · rw [if_neg (mt (fits_of_shifted_back h hlt) hfits), checked_of_not_fits hfits]

theorem shiftedRight_toInt {n count : Int64} (h : 0 ≤ count.toInt) :
    (shiftedRight n count).toInt = n.toInt / 2 ^ count.toInt.toNat := by
  unfold shiftedRight
  by_cases hcount : 64 ≤ count
  · rw [if_pos hcount]
    have hplaces : 64 ≤ count.toInt.toNat := by
      rw [count_lt_iff] at hcount
      omega
    have hlarge : (2 : Int) ^ 64 ≤ 2 ^ count.toInt.toNat :=
      pow_le_pow_right₀ (by decide) hplaces
    have hn := fits_toInt n
    unfold Fits at hn
    by_cases hneg : n < 0
    · rw [if_pos hneg]
      rw [neg_iff] at hneg
      exact (Int.ediv_eq_neg_one_of_neg_of_le hneg (by omega)).symm
    · rw [if_neg hneg]
      rw [neg_iff] at hneg
      exact (Int.ediv_eq_zero_of_lt (by omega) (by omega)).symm
  · rw [if_neg hcount]
    exact toInt_shiftRight h (Int.not_le.mp (mt count_lt_iff.mpr hcount))

/-! ## Binary digits -/

/-- The digits of a word, and above them its sign without end. -/
theorem testBit_toInt (n : Int64) (k : Nat) :
    n.toInt.testBit k = if k < 64 then n.toBitVec.getLsbD k else n.toBitVec.msb := by
  rw [← Int64.toInt_toBitVec]
  generalize n.toBitVec = x
  cases hsign : x.msb with
  | false =>
    have hnat : x.toInt = Int.ofNat x.toNat := BitVec.toInt_eq_toNat_of_msb hsign
    rw [hnat]
    show x.toNat.testBit k = _
    rw [BitVec.testBit_toNat]
    by_cases hk : k < 64
    · rw [if_pos hk]
    · rw [if_neg hk, BitVec.getLsbD_of_ge x k (Nat.not_lt.mp hk)]
  | true =>
    have hnot : x.toInt = Int.negSucc (~~~x).toNat := by
      have hneg := BitVec.toInt_eq_msb_cond x
      rw [if_pos hsign] at hneg
      rw [hneg, BitVec.toNat_not, Int.negSucc_eq]
      have := x.isLt
      omega
    rw [hnot]
    show (!(~~~x).toNat.testBit k) = _
    rw [BitVec.testBit_toNat, BitVec.getLsbD_not]
    by_cases hk : k < 64
    · simp [hk]
    · simp [hk]

theorem eq_of_testBit_eq {m n : Int} (h : ∀ k, m.testBit k = n.testBit k) : m = n := by
  -- a natural number has no digits from some place on, and its complement all of them
  have top (m n : Nat) : m.testBit (max m n) = false ∧ n.testBit (max m n) = false := by
    have hm : m < 2 ^ max m n := lt_of_le_of_lt (le_max_left m n) Nat.lt_two_pow_self
    have hn : n < 2 ^ max m n := lt_of_le_of_lt (le_max_right m n) Nat.lt_two_pow_self
    exact ⟨Nat.testBit_lt_two_pow hm, Nat.testBit_lt_two_pow hn⟩
  cases m with
  | ofNat m =>
    cases n with
    | ofNat n => rw [Nat.eq_of_testBit_eq h]
    | negSucc n =>
      have hk : m.testBit (max m n) = !n.testBit (max m n) := h _
      rw [(top m n).1, (top m n).2] at hk
      cases hk
  | negSucc m =>
    cases n with
    | ofNat n =>
      have hk : (!m.testBit (max m n)) = n.testBit (max m n) := h _
      rw [(top m n).1, (top m n).2] at hk
      cases hk
    | negSucc n => rw [Nat.eq_of_testBit_eq fun k => Bool.not_inj (h k)]

/-- An operation that works digit by digit, on words and on integers alike. -/
theorem toInt_digitwise {f : Int64 → Int64 → Int64} {g : Int → Int → Int} {b : Bool → Bool → Bool}
    (m n : Int64)
    (hbelow : ∀ k < 64, (f m n).toBitVec.getLsbD k =
      b (m.toBitVec.getLsbD k) (n.toBitVec.getLsbD k))
    (hsign : (f m n).toBitVec.msb = b m.toBitVec.msb n.toBitVec.msb)
    (hexact : ∀ k, (g m.toInt n.toInt).testBit k = b (m.toInt.testBit k) (n.toInt.testBit k)) :
    (f m n).toInt = g m.toInt n.toInt := by
  apply eq_of_testBit_eq
  intro k
  rw [hexact, testBit_toInt, testBit_toInt, testBit_toInt]
  by_cases hk : k < 64
  · simp only [if_pos hk, hbelow k hk]
  · simp only [if_neg hk, hsign]

theorem toInt_and (m n : Int64) : (m &&& n).toInt = m.toInt.land n.toInt := by
  apply toInt_digitwise m n (b := and)
  · simp
  · simp [BitVec.msb_and]
  · exact Int.testBit_land _ _

theorem toInt_or (m n : Int64) : (m ||| n).toInt = m.toInt.lor n.toInt := by
  apply toInt_digitwise m n (b := or)
  · simp
  · simp [BitVec.msb_or]
  · exact Int.testBit_lor _ _

theorem toInt_xor (m n : Int64) : (m ^^^ n).toInt = m.toInt.xor n.toInt := by
  apply toInt_digitwise m n (b := xor)
  · simp
  · simp [BitVec.msb_xor]
  · exact Int.testBit_lxor _ _

theorem toInt_not (n : Int64) : (~~~n).toInt = n.toInt.lnot := by
  apply eq_of_testBit_eq
  intro k
  rw [Int.testBit_lnot, testBit_toInt, testBit_toInt, Int64.toBitVec_not]
  by_cases hk : k < 64
  · simp [hk]
  · simp [hk, BitVec.msb_not]

/-! ## The operators -/

/-- The integer that an operator denotes, where it denotes one. -/
def exact : BinaryOp → Int → Int → Option Int
  | .add, a, b => some (a + b)
  | .sub, a, b => some (a - b)
  | .mul, a, b => some (a * b)
  | .floorDiv, a, b => if b = 0 then none else some ⌊(a / b : ℚ)⌋
  | .mod, a, b => if b = 0 then none else some (a - b * ⌊(a / b : ℚ)⌋)
  | .pow, a, b => if b < 0 then none else some (a ^ b.toNat)
  | .shiftLeft, a, b => if b < 0 then none else some (a * 2 ^ b.toNat)
  | .shiftRight, a, b => if b < 0 then none else some ⌊(a / 2 ^ b.toNat : ℚ)⌋
  | _, _, _ => none

/-- The operation on integers without end that a bitwise operator denotes. -/
def exactBits : BinaryOp → Option (Int → Int → Int)
  | .bitAnd => some Int.land
  | .bitXor => some Int.xor
  | .bitOr => some Int.lor
  | _ => none

theorem number_of_int {v : Value} {n : Int64} (h : v.int? = some n) :
    v.number? = some (.int n) := by
  cases v with
  | bool b => simp [Value.number?, h]
  | int m => simp [Value.number?, h]
  | _ => cases h

section

variable {l r : Value} {m n : Int64} (hl : l.int? = some m) (hr : r.int? = some n)
include hl hr

theorem arithmetic_ints (op : BinaryOp) (onInts : Int64 → Int64 → Except EvalError Value)
    (onFloats : Binary64 → Binary64 → Except EvalError Binary64) :
    arithmetic op onInts onFloats l r = onInts m n := by
  simp only [arithmetic, numbers, number_of_int hl, number_of_int hr]
  rfl

theorem shift_ints (op : BinaryOp) (onInts : Int64 → Int64 → Option Int64) :
    shift op onInts l r =
      if n < 0 then .error .negativeShift else fitting op (onInts m n) := by
  simp only [shift, integers, hl, hr]
  rfl

/-- Where an operator denotes an integer, it gives that integer if it fits. -/
theorem apply_eq_fitting {op : BinaryOp} {x : Int} (h : exact op m.toInt n.toInt = some x) :
    op.apply l r = fitting op (checked x) := by
  have defined {c : Prop} [Decidable c] {y : Int} (h : (if c then none else some y) = some x) :
      ¬ c ∧ y = x := by
    by_cases hc : c
    · simp [hc] at h
    · simpa [hc] using h
  cases op with
  | add | sub | mul =>
    cases h
    simp only [BinaryOp.apply, arithmetic_ints hl hr]
  | floorDiv =>
    obtain ⟨hn, rfl⟩ := defined h
    have hne : n ≠ 0 := mt toInt_eq_zero_iff.mpr hn
    rw [floor_div_eq_fdiv, ← floorQuotient_eq hne]
    simp only [BinaryOp.apply, arithmetic_ints hl hr, dividedInts, hne, if_false]
  | mod =>
    obtain ⟨hn, rfl⟩ := defined h
    have hne : n ≠ 0 := mt toInt_eq_zero_iff.mpr hn
    rw [floor_div_eq_fdiv, ← Int.fmod_def, ← floorRemainder_toInt hne, checked_toInt]
    simp only [BinaryOp.apply, arithmetic_ints hl hr, dividedInts, hne, if_false]
  | pow =>
    obtain ⟨hn, rfl⟩ := defined h
    rw [← naturalPower_eq (Int.not_lt.mp hn)]
    simp only [BinaryOp.apply, arithmetic_ints hl hr, intPower, neg_iff, hn, if_false]
  | shiftLeft =>
    obtain ⟨hn, rfl⟩ := defined h
    rw [← shiftedLeft_eq (Int.not_lt.mp hn)]
    simp only [BinaryOp.apply, shift_ints hl hr, neg_iff, hn, if_false]
  | shiftRight =>
    obtain ⟨hn, rfl⟩ := defined h
    have hfloor : ⌊(m.toInt / 2 ^ n.toInt.toNat : ℚ)⌋ = (shiftedRight m n).toInt := by
      rw [shiftedRight_toInt (Int.not_lt.mp hn)]
      exact_mod_cast Rat.floor_intCast_div_natCast m.toInt (2 ^ n.toInt.toNat)
    rw [hfloor, checked_toInt]
    simp only [BinaryOp.apply, shift_ints hl hr, neg_iff, hn, if_false]
  | _ => cases h

theorem bitwise_ints (op : BinaryOp) {onInts : Int64 → Int64 → Int64} {f : Int → Int → Int}
    (hexact : ∀ a b, (onInts a b).toInt = f a.toInt b.toInt)
    (htruth : ∀ a b : Bool, (onInts a.toInt64 b.toInt64 != 0).toInt64 = onInts a.toInt64 b.toInt64) :
    ∃ v, bitwise op onInts l r = .ok v ∧ v.int?.map Int64.toInt = some (f m.toInt n.toInt) ∧
      (v.kind = .bool ↔ l.kind = .bool ∧ r.kind = .bool) := by
  have integer (h : bitwise op onInts l r = .ok (.int (onInts m n)))
      (hkind : ¬ (l.kind = .bool ∧ r.kind = .bool)) :
      ∃ v, bitwise op onInts l r = .ok v ∧ v.int?.map Int64.toInt = some (f m.toInt n.toInt) ∧
        (v.kind = .bool ↔ l.kind = .bool ∧ r.kind = .bool) :=
    ⟨.int (onInts m n), h, by rw [← hexact]; rfl, nofun, fun h => absurd h hkind⟩
  cases l with
  | bool a =>
    cases r with
    | bool b =>
      cases hl
      cases hr
      refine ⟨.bool (onInts a.toInt64 b.toInt64 != 0), rfl, ?_, by simp [Value.kind]⟩
      rw [← hexact]
      exact congrArg (fun i => some (Int64.toInt i)) (htruth a b)
    | int j => cases hl; cases hr; exact integer rfl (by simp [Value.kind])
    | _ => cases hr
  | int i =>
    cases r with
    | bool b | int j => cases hl; cases hr; exact integer rfl (by simp [Value.kind])
    | _ => cases hr
  | _ => cases hl

/-- On two truth values a bitwise operator gives a truth value, and otherwise an
    integer. -/
theorem apply_bits {op : BinaryOp} {f : Int → Int → Int} (h : exactBits op = some f) :
    ∃ v, op.apply l r = .ok v ∧ v.int?.map Int64.toInt = some (f m.toInt n.toInt) ∧
      (v.kind = .bool ↔ l.kind = .bool ∧ r.kind = .bool) := by
  cases op with
  | bitAnd => cases h; exact bitwise_ints hl hr .bitAnd toInt_and (by decide)
  | bitXor => cases h; exact bitwise_ints hl hr .bitXor toInt_xor (by decide)
  | bitOr => cases h; exact bitwise_ints hl hr .bitOr toInt_or (by decide)
  | _ => cases h

/-- No division by zero is carried out. -/
theorem apply_zero (h : n = 0) :
    ∀ op ∈ [BinaryOp.trueDiv, .floorDiv, .mod], op.apply l r = .error .divisionByZero := by
  subst h
  intro op hop
  simp only [List.mem_cons, List.not_mem_nil, or_false] at hop
  rcases hop with rfl | rfl | rfl
  · simp only [BinaryOp.apply, numbers, number_of_int hl, number_of_int hr]
    rfl
  · simp only [BinaryOp.apply, arithmetic_ints hl hr, dividedInts, if_true]
  · simp only [BinaryOp.apply, arithmetic_ints hl hr, dividedInts, if_true]

theorem apply_pow_zero (hm : m = 0) (hn : n < 0) :
    BinaryOp.pow.apply l r = .error .divisionByZero := by
  simp only [BinaryOp.apply, arithmetic_ints hl hr, intPower, hm, hn, if_true]

theorem apply_negative_shift (hn : n < 0) :
    ∀ op ∈ [BinaryOp.shiftLeft, .shiftRight], op.apply l r = .error .negativeShift := by
  intro op hop
  simp only [List.mem_cons, List.not_mem_nil, or_false] at hop
  rcases hop with rfl | rfl
  · simp only [BinaryOp.apply, shift_ints hl hr, hn, if_true]
  · simp only [BinaryOp.apply, shift_ints hl hr, hn, if_true]

end

theorem apply_invert {v : Value} {n : Int64} (h : v.int? = some n) :
    ∃ i, UnaryOp.invert.apply v = .ok (.int i) ∧ i.toInt = n.toInt.lnot := by
  simp only [UnaryOp.apply, h]
  exact ⟨~~~n, rfl, toInt_not n⟩

theorem apply_neg {v : Value} {n : Int64} (h : v.int? = some n) :
    if n = Int64.minValue then UnaryOp.neg.apply v = .error (.unaryOverflow .neg)
    else ∃ i, UnaryOp.neg.apply v = .ok (.int i) ∧ i.toInt = -n.toInt := by
  have hn := fits_toInt n
  simp only [UnaryOp.apply, number_of_int h]
  by_cases hmin : n = Int64.minValue
  · rw [if_pos hmin, hmin]
    rfl
  · rw [if_neg hmin]
    have hne : n.toInt ≠ -2 ^ 63 := by
      rw [← Int64.toInt_minValue]
      exact mt Int64.toInt_inj.mp hmin
    have hfits : Fits (-n.toInt) := by
      unfold Fits at *
      omega
    rw [checked_of_fits hfits]
    exact ⟨_, rfl, Int64.toInt_ofInt_of_le hfits.1 hfits.2⟩

/-- The steps on words in between do what they do on integers: nothing wraps
    around, and no remainder and no shift is one that the machine refuses. -/
structure NoWrap (a b : Int64) : Prop where
  /-- The remainder is taken once the quotient is known to fit. -/
  remainder : b ≠ 0 → ∀ q, checked (a.toInt.tdiv b.toInt) = some q →
    ¬ (a = Int64.minValue ∧ b = -1) ∧ (a % b).toInt = a.toInt.tmod b.toInt
  quotientCorrection : b ≠ 0 → ∀ q, checked (a.toInt.tdiv b.toInt) = some q → a % b ≠ 0 →
    (q - 1).toInt = q.toInt - 1
  remainderCorrection : decide (a % b < 0) ≠ decide (b < 0) →
    (a % b + b).toInt = (a % b).toInt + b.toInt
  /-- The digits that a shift to the left loses are missed when it is undone. -/
  places : 0 ≤ b.toInt → b.toInt < 64 → (b.toBitVec.smod 64#64).toNat = b.toInt.toNat

theorem noWrap (a b : Int64) : NoWrap a b where
  remainder _ q hq := by
    refine ⟨?_, Int64.toInt_mod a b⟩
    intro hleast
    obtain ⟨rfl, rfl⟩ := hleast
    have hnone : checked ((Int64.minValue).toInt.tdiv (-1 : Int64).toInt) = none := by decide
    rw [hnone] at hq
    cases hq
  quotientCorrection hb _ hq hrest := quotient_sub_one hb hq hrest
  remainderCorrection := toInt_add_of_signs
  places := toNat_smod_count

/-- On integers, truth values among them, the operators give the exact result
    or report that it does not fit. -/
theorem integers_exact {l r : Value} {m n : Int64} (hl : l.int? = some m) (hr : r.int? = some n) :
    (∀ op x, exact op m.toInt n.toInt = some x →
      (Fits x → ∃ i, op.apply l r = .ok (.int i) ∧ i.toInt = x) ∧
      (¬ Fits x → op.apply l r = .error (.binaryOverflow op))) ∧
    (∀ op f, exactBits op = some f →
      ∃ v, op.apply l r = .ok v ∧ v.int?.map Int64.toInt = some (f m.toInt n.toInt) ∧
        (v.kind = .bool ↔ l.kind = .bool ∧ r.kind = .bool)) ∧
    (∃ i, UnaryOp.invert.apply l = .ok (.int i) ∧ i.toInt = m.toInt.lnot) ∧
    (if m = Int64.minValue then UnaryOp.neg.apply l = .error (.unaryOverflow .neg)
      else ∃ i, UnaryOp.neg.apply l = .ok (.int i) ∧ i.toInt = -m.toInt) ∧
    (n = 0 → ∀ op ∈ [BinaryOp.trueDiv, .floorDiv, .mod],
      op.apply l r = .error .divisionByZero) ∧
    (m = 0 → n < 0 → BinaryOp.pow.apply l r = .error .divisionByZero) ∧
    (n < 0 → ∀ op ∈ [BinaryOp.shiftLeft, .shiftRight], op.apply l r = .error .negativeShift) ∧
    NoWrap m n := by
  refine ⟨?_, fun _ _ => apply_bits hl hr, apply_invert hl, apply_neg hl, apply_zero hl hr,
    apply_pow_zero hl hr, apply_negative_shift hl hr, noWrap m n⟩
  intro op x hx
  rw [apply_eq_fitting hl hr hx]
  constructor
  · intro hfits
    rw [checked_of_fits hfits]
    exact ⟨_, rfl, Int64.toInt_ofInt_of_le hfits.1 hfits.2⟩
  · intro hlarge
    rw [checked_of_not_fits hlarge]
    rfl

/-- The least integer divided by -1 is the one quotient that does not fit. -/
theorem least_divided :
    BinaryOp.floorDiv.apply (.int Int64.minValue) (.int (-1)) =
      .error (.binaryOverflow .floorDiv) := by
  have hquot : exact .floorDiv (Int64.minValue).toInt (-1 : Int64).toInt = some (2 ^ 63) := by
    rw [exact, if_neg (by decide), floor_div_eq_fdiv]
    rfl
  have hlarge : ¬ Fits (2 ^ 63) := by
    unfold Fits
    omega
  exact ((integers_exact rfl rfl).1 .floorDiv _ hquot).2 hlarge

end Calculator
