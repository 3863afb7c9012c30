import SchemaFlow.Decimal.Text
import SchemaFlow.Proofs.Decimal.Rounding

/-!
# The text of a size

The decimal that is found for a large number is in the interval of the number, so it goes back to the
number when it is read. It is a whole number: the search comes by the grid of whole numbers, where the
number itself is a hit, before any finer one. Below `10^21` its text has digits only; from there on the
exponent is written out.

* `shortest_near`: the decimal that is found is in the interval.
* `sizeText_digits`: below `10^21` the text of a size is read as the size.
* `plus_mem_sizeText`: from `10^21` on it has a plus sign.
-/

namespace SchemaFlow.Decimal

/-! ## 1. The search -/

namespace Interval

theorem holds_of_nearestWhole? {i : Interval} {d : Nat} (h : i.nearestWhole? = some d) :
    i.holds d = true := by
  unfold nearestWhole? at h
  dsimp only at h
  split at h
  · rename_i hbelow habove
    rcases Nat.mod_two_eq_zero_or_one (i.value / i.denominator) with heven | hodd
    · split at h
      · cases h
        exact hbelow
      · split at h
        · cases h
          exact habove
        · cases h
          rw [heven]
          exact hbelow
    · split at h
      · cases h
        exact hbelow
      · split at h
        · cases h
          exact habove
        · cases h
          rw [hodd]
          exact habove
  · rename_i hbelow _
    cases h
    exact hbelow
  · rename_i _ habove
    cases h
    exact habove
  · cases h

theorem exists_nearestWhole? {i : Interval} (h : i.holds (i.value / i.denominator) = true) :
    ∃ d, i.nearestWhole? = some d := by
  unfold nearestWhole?
  dsimp only
  rw [h]
  cases i.holds (i.value / i.denominator + 1) with
  | false => exact ⟨_, rfl⟩
  | true =>
      dsimp only
      split
      · exact ⟨_, rfl⟩
      · split <;> exact ⟨_, rfl⟩

/-- A hit is in the interval, and no search goes beyond the whole numbers if there is a hit among
    them. -/
theorem searchFrom_some {i : Interval} {lead : Int} {found : Digits}
    (hwhole : ∃ d, (i.inUnits 0).nearestWhole? = some d) : ∀ (fuel count : Nat),
      0 ≤ lead - ((count : Int) - 1) → i.searchFrom lead fuel count = some found →
      0 ≤ found.exponent ∧ (i.inUnits found.exponent).holds found.digits = true
  | 0, _, _, h => by cases h
  | fuel + 1, count, hcount, h => by
      unfold searchFrom at h
      dsimp only at h
      split at h
      · rename_i d hhit
        cases h
        exact ⟨hcount, holds_of_nearestWhole? hhit⟩
      · rename_i hmiss
        have hne : lead - ((count : Int) - 1) ≠ 0 := by
          intro he
          obtain ⟨d, hd⟩ := hwhole
          rw [he, hd] at hmiss
          cases hmiss
        refine searchFrom_some hwhole fuel (count + 1) ?_ h
        push_cast
        omega

end Interval

/-- Zeros at the end of the digits go into the exponent. -/
theorem Digits.trimmed_eq (d : Digits) :
    ∃ k : Nat, d.trimmed.exponent = d.exponent + k ∧ d.digits = d.trimmed.digits * 10 ^ k := by
  have hgo : ∀ (fuel : Nat) (d : Digits), ∃ k : Nat,
      (trimmed.go fuel d).exponent = d.exponent + k ∧
        d.digits = (trimmed.go fuel d).digits * 10 ^ k := by
    intro fuel
    induction fuel with
    | zero => exact fun d => ⟨0, by simp [trimmed.go], by simp [trimmed.go]⟩
    | succ fuel ih =>
        intro d
        by_cases hd : d.digits ≠ 0 ∧ d.digits % 10 = 0
        · obtain ⟨k, hexponent, hdigits⟩ := ih ⟨d.digits / 10, d.exponent + 1⟩
          rw [trimmed.go, if_pos hd]
          refine ⟨k + 1, ?_, ?_⟩
          · rw [hexponent]
            push_cast
            ring
          · dsimp only at hdigits
            rw [Nat.pow_succ, ← Nat.mul_assoc, ← hdigits]
            omega
        · rw [trimmed.go, if_neg hd]
          exact ⟨0, by simp, by simp⟩
  exact hgo _ d

/-! ## 2. The decimal of a large number -/

/-- The interval of a whole number. -/
theorem intervalOf_nat (m q : Nat) : intervalOf m q =
    { value := 4 * m * 2 ^ q
      low := (4 * m - (if m = 2 ^ 52 then 1 else 2)) * 2 ^ q
      high := (4 * m + 2) * 2 ^ q
      denominator := 4
      closed := decide (m % 2 = 0) } := by
  have hsmallest : (m = 2 ^ 52 ∧ -1074 < (q : Int)) = (m = 2 ^ 52) := by
    rw [eq_iff_iff]
    constructor
    · exact fun h => h.1
    · exact fun h => ⟨h, by omega⟩
  have hq : (-(q : Int)).toNat = 0 := by omega
  simp only [intervalOf, Nat.pow_eq, Int.toNat_natCast, hq, hsmallest, Nat.pow_zero, Nat.mul_one]

/-- The interval of a whole number, in units of a power of ten. -/
theorem inUnits_intervalOf (m q k : Nat) : (intervalOf m q).inUnits k =
    { value := 4 * m * 2 ^ q
      low := (4 * m - (if m = 2 ^ 52 then 1 else 2)) * 2 ^ q
      high := (4 * m + 2) * 2 ^ q
      denominator := 4 * 10 ^ k
      closed := decide (m % 2 = 0) } := by
  have hk : (-(k : Int)).toNat = 0 := by omega
  simp only [intervalOf_nat, Interval.inUnits, Nat.pow_eq, Int.toNat_natCast, hk, Nat.pow_zero,
    Nat.mul_one]

/-- A hit is in the interval of the number. -/
theorem near_of_holds {m q k d : Nat}
    (h : ((intervalOf m q).inUnits k).holds d = true) : Near m q (d * 10 ^ k) := by
  have hunits : d * (4 * 10 ^ k) = 4 * (d * 10 ^ k) := by ring
  rw [inUnits_intervalOf, Interval.holds] at h
  dsimp only at h
  rw [hunits] at h
  by_cases hm : m % 2 = 0
  · rw [decide_eq_true hm, if_pos rfl, Bool.and_eq_true, decide_eq_true_eq,
      decide_eq_true_eq] at h
    exact ⟨h.1, h.2, fun hodd => by omega⟩
  · have hne : m ≠ 2 ^ 52 := fun e => hm (e ▸ by decide)
    rw [decide_eq_false hm, if_neg Bool.false_ne_true, Bool.and_eq_true, decide_eq_true_eq,
      decide_eq_true_eq, if_neg hne] at h
    exact ⟨by rw [if_neg hne]; exact Nat.le_of_lt h.1, Nat.le_of_lt h.2, fun _ => h⟩

theorem value_div (m q : Nat) : 4 * m * 2 ^ q / 4 = m * 2 ^ q := by
  rw [Nat.mul_assoc, Nat.mul_div_cancel_left _ (by decide)]

/-- A number is in its own interval. -/
theorem near_self {m q : Nat} (hm : 0 < m) : Near m q (m * 2 ^ q) := by
  have hpos : 0 < 2 ^ q := Nat.two_pow_pos q
  have hvalue : 4 * (m * 2 ^ q) = 4 * m * 2 ^ q := (Nat.mul_assoc _ _ _).symm
  have hlow : ∀ δ, 0 < δ → (4 * m - δ) * 2 ^ q < 4 * m * 2 ^ q := fun δ hδ =>
    Nat.mul_lt_mul_of_pos_right (by omega) hpos
  have hhigh : 4 * m * 2 ^ q < (4 * m + 2) * 2 ^ q := Nat.mul_lt_mul_of_pos_right (by omega) hpos
  refine ⟨?_, ?_, fun _ => ?_⟩
  · rw [hvalue]
    exact Nat.le_of_lt (hlow _ (by split <;> decide))
  · rw [hvalue]
    exact Nat.le_of_lt hhigh
  · rw [hvalue]
    exact ⟨hlow 2 (by decide), hhigh⟩

/-- The number itself is a hit among the whole numbers. -/
theorem exists_hit {m q : Nat} (hm : 0 < m) :
    ∃ d, ((intervalOf m q).inUnits 0).nearestWhole? = some d := by
  have hnear := near_self (q := q) hm
  have hunits : m * 2 ^ q * 4 = 4 * (m * 2 ^ q) := Nat.mul_comm _ _
  refine Interval.exists_nearestWhole? ?_
  rw [← Nat.cast_zero, inUnits_intervalOf, Nat.pow_zero, Nat.mul_one, Interval.holds]
  dsimp only
  rw [value_div, hunits]
  by_cases hm : m % 2 = 0
  · rw [decide_eq_true hm, if_pos rfl, Bool.and_eq_true, decide_eq_true_eq, decide_eq_true_eq]
    exact ⟨hnear.low, hnear.high⟩
  · have hne : m ≠ 2 ^ 52 := fun e => hm (e ▸ by decide)
    rw [decide_eq_false hm, if_neg Bool.false_ne_true, Bool.and_eq_true, decide_eq_true_eq,
      decide_eq_true_eq, if_neg hne]
    exact hnear.strict (by omega)

/-- The leading digit of a whole number is at the units or before them. -/
theorem leadingExponent_nonneg {m q : Nat} (hm : 0 < m) : 0 ≤ (intervalOf m q).leadingExponent := by
  have hpos : 0 < m * 2 ^ q := Nat.mul_pos hm (Nat.two_pow_pos q)
  have hlarge : 4 ≤ 4 * m * 2 ^ q := by
    rw [Nat.mul_assoc]
    omega
  rw [Interval.leadingExponent, intervalOf_nat, if_pos hlarge]
  have hlen := Nat.length_toDigits_pos (b := 10) (n := 4 * m * 2 ^ q / 4)
  dsimp only
  omega

/-- Before its zeros are cut off, the decimal is in the interval. -/
theorem exists_found {m q : Nat} (hm : 0 < m) :
    ∃ (found : Digits) (k : Nat), shortest m q = found.trimmed ∧ found.exponent = k ∧
      Near m q (found.digits * 10 ^ k) := by
  cases hsearch : (intervalOf m q).searchFrom (intervalOf m q).leadingExponent 17 1 with
  | none =>
      refine ⟨⟨m * 2 ^ q, 0⟩, 0, ?_, rfl, ?_⟩
      · simp only [shortest, hsearch, Option.getD_none]
        rw [intervalOf_nat, value_div]
      · rw [Nat.pow_zero, Nat.mul_one]
        exact near_self hm
  | some found =>
      have hlead := leadingExponent_nonneg (q := q) hm
      obtain ⟨hexponent, hholds⟩ :=
        Interval.searchFrom_some (exists_hit hm) 17 1 (by push_cast; omega) hsearch
      obtain ⟨k, hk⟩ := Int.eq_ofNat_of_zero_le hexponent
      rw [hk] at hholds
      exact ⟨found, k, by simp only [shortest, hsearch, Option.getD_some], hk,
        near_of_holds hholds⟩

/-- **The decimal that is found is a whole number in the interval.** -/
theorem shortest_near {m q : Nat} (hm : 0 < m) :
    ∃ k : Nat, (shortest m q).exponent = k ∧ Near m q ((shortest m q).digits * 10 ^ k) := by
  obtain ⟨found, k, hshortest, hk, hnear⟩ := exists_found (q := q) hm
  obtain ⟨j, hexponent, hdigits⟩ := found.trimmed_eq
  refine ⟨k + j, ?_, ?_⟩
  · rw [hshortest, hexponent, hk]
    push_cast
    ring
  · rw [hdigits] at hnear
    rw [hshortest, Nat.add_comm, Nat.pow_add, ← Nat.mul_assoc]
    exact hnear

/-! ## 3. The text -/

theorem count_add_le_iff {n k : Nat} (hn : 0 < n) :
    (Nat.toDigits 10 n).length + k ≤ 21 ↔ n * 10 ^ k < 10 ^ 21 := by
  have hlen := Nat.length_toDigits_pos (b := 10) (n := n)
  by_cases hk : k < 21
  · have hsplit : (10 : Nat) ^ 21 = 10 ^ (21 - k) * 10 ^ k := by
      rw [← Nat.pow_add, Nat.sub_add_cancel (Nat.le_of_lt hk)]
    rw [hsplit, Nat.mul_lt_mul_right (Nat.pow_pos (by decide)),
      ← Nat.length_toDigits_le_iff (by decide) (by omega)]
    omega
  · have hlarge : 10 ^ 21 ≤ n * 10 ^ k :=
      Nat.le_trans (Nat.pow_le_pow_right (by decide) (Nat.le_of_not_lt hk))
        (Nat.le_mul_of_pos_left _ hn)
    omega

/-- A whole number below `10^21` is laid out with all its digits. -/
theorem write_of_lt {d : Digits} {k : Nat} (hk : d.exponent = k) (hpos : 0 < d.digits)
    (h : d.digits * 10 ^ k < 10 ^ 21) :
    (Layout.number.write d).toList = Nat.toDigits 10 d.digits ++ List.replicate k '0' := by
  have hlen := Nat.length_toDigits_pos (b := 10) (n := d.digits)
  have hcount := (count_add_le_iff hpos).2 h
  have hpoint : 0 < ((Nat.toDigits 10 d.digits).length : Int) + k ∧
      ((Nat.toDigits 10 d.digits).length : Int) + k ≤ 21 := by omega
  have hend : ((Nat.toDigits 10 d.digits).length : Int) ≤ (Nat.toDigits 10 d.digits).length + k := by
    omega
  have hzeros : ((((Nat.toDigits 10 d.digits).length : Int) + k) -
      (Nat.toDigits 10 d.digits).length).toNat = k := by omega
  simp only [Layout.write, Layout.number, hk, if_pos hpoint, if_pos hend, hzeros,
    String.toList_ofList]

/-- A whole number from `10^21` on is laid out with its exponent. -/
theorem plus_mem_write {d : Digits} {k : Nat} (hk : d.exponent = k) (hpos : 0 < d.digits)
    (h : 10 ^ 21 ≤ d.digits * 10 ^ k) : '+' ∈ (Layout.number.write d).toList := by
  have hlen := Nat.length_toDigits_pos (b := 10) (n := d.digits)
  have hcount : ¬ (Nat.toDigits 10 d.digits).length + k ≤ 21 := by
    rw [count_add_le_iff hpos]
    omega
  have hpoint : ¬ (0 < ((Nat.toDigits 10 d.digits).length : Int) + k ∧
      ((Nat.toDigits 10 d.digits).length : Int) + k ≤ 21) := by omega
  have hsmall : ¬ (((Nat.toDigits 10 d.digits).length : Int) + k ≤ 0 ∧
      -(5 : Int) ≤ ((Nat.toDigits 10 d.digits).length : Int) + k) := by omega
  have hsign : ¬ ((Nat.toDigits 10 d.digits).length : Int) + k - 1 < 0 := by omega
  simp only [Layout.write, Layout.number, hk, if_neg hpoint, if_neg hsmall, exponentText,
    if_neg hsign, String.toList_append, List.mem_append]
  exact Or.inr (Or.inl (by decide))

/-- Digits and zeros spell the number times a power of ten. -/
theorem ofDigits_append_zeros (n k : Nat) :
    ofDigits (Nat.toDigits 10 n ++ List.replicate k '0') = n * 10 ^ k := by
  have hvalue : Nat.ofDigitChars 10 (Nat.toDigits 10 n ++ List.replicate k '0') 0 = 10 ^ k * n := by
    rw [Nat.ofDigitChars_append, Nat.ofDigitChars_ten_toDigits, Nat.ofDigitChars_replicate_zero]
  rw [Nat.mul_comm]
  exact hvalue

/-- Every unit up to `2^17` divides `10^21`. -/
theorem pow_two_dvd {q : Nat} (hq : q ≤ 17) : 2 ^ q ∣ 10 ^ 21 :=
  Nat.dvd_trans (Nat.pow_dvd_pow 2 hq) (by decide)

/-- The interval of a number below `10^21` ends below it: all its units divide `10^21`. -/
theorem Near.lt_of_lt {m q n : Nat} (h : Near m q n) (hlow : 2 ^ 52 ≤ m)
    (hlt : m * 2 ^ q < 10 ^ 21) : n < 10 ^ 21 := by
  have hpos : 0 < 2 ^ q := Nat.two_pow_pos q
  have hq : q ≤ 17 := by
    by_contra hq
    have hmul : 2 ^ 52 * 2 ^ 18 ≤ m * 2 ^ q :=
      Nat.mul_le_mul hlow (Nat.pow_le_pow_right (by decide) (by omega))
    omega
  obtain ⟨c, hc⟩ := pow_two_dvd hq
  have hmc : m < c := by
    rw [hc, Nat.mul_comm] at hlt
    exact Nat.lt_of_mul_lt_mul_left hlt
  have hnext : (m + 1) * 2 ^ q ≤ 2 ^ q * c := by
    rw [Nat.mul_comm]
    exact Nat.mul_le_mul_left _ hmc
  have hup : 4 * n ≤ 4 * (m * 2 ^ q) + 2 * 2 ^ q := by
    have hring : 4 * (m * 2 ^ q) + 2 * 2 ^ q = (4 * m + 2) * 2 ^ q := by ring
    rw [hring]
    exact h.high
  rw [Nat.add_mul, Nat.one_mul, ← hc] at hnext
  omega

/-- The interval of a number above `10^21` begins above it. -/
theorem Near.le_of_lt {m q n : Nat} (h : Near m q n) (hlow : 2 ^ 52 ≤ m) (hhigh : m < 2 ^ 53)
    (hlt : 10 ^ 21 < m * 2 ^ q) : 10 ^ 21 ≤ n := by
  have hpos : 0 < 2 ^ q := Nat.two_pow_pos q
  have hdown : (4 * m - 2) * 2 ^ q ≤ 4 * n :=
    Nat.le_trans (Nat.mul_le_mul_right _ (by split <;> omega)) h.low
  have hq : 17 ≤ q := by
    by_contra hq
    have hmul : m * 2 ^ q ≤ 2 ^ 53 * 2 ^ 16 :=
      Nat.mul_le_mul (Nat.le_of_lt hhigh) (Nat.pow_le_pow_right (by decide) (by omega))
    omega
  rcases Nat.eq_or_lt_of_le hq with rfl | hq
  · omega
  · have hmul : (4 * 2 ^ 52 - 2) * 2 ^ 18 ≤ (4 * m - 2) * 2 ^ q :=
      Nat.mul_le_mul (by omega) (Nat.pow_le_pow_right (by decide) hq)
    omega

/-- The digits of a large number: read back they give the number, and they are on the same side of
    `10^21`. -/
theorem exists_digits {n : Nat} (h : Held n) (hn : 2 ^ 53 ≤ n) :
    ∃ (d : Digits) (k : Nat), sizeText n = Layout.number.write d ∧ d.exponent = k ∧
      0 < d.digits ∧ roundTo53 (d.digits * 10 ^ k) = n ∧
      (d.digits * 10 ^ k < 10 ^ 21 ↔ n < 10 ^ 21) := by
  obtain ⟨m, q, rfl, hq, hlow, hhigh⟩ := h.exists_scaled hn
  have hm : 0 < m := by omega
  have hpos : 0 < 2 ^ q := Nat.two_pow_pos q
  have hlog : Nat.log2 (m * 2 ^ q) = 52 + q := by
    have h := log2_of_unit (s := q) hlow hhigh hpos
    rwa [Nat.add_zero] at h
  have hdiv : m * 2 ^ q / Nat.pow 2 q = m := Nat.mul_div_cancel _ hpos
  obtain ⟨k, hk, hnear⟩ := shortest_near (q := q) hm
  have hround := hnear.roundTo53 hq hlow hhigh
  refine ⟨shortest m q, k, ?_, hk, ?_, hround, ?_⟩
  · have hlarge : ¬ m * 2 ^ q < Nat.pow 2 53 := Nat.not_lt.2 hn
    simp only [sizeText, if_neg hlarge, hlog, Nat.add_sub_cancel_left, hdiv]
  · refine Nat.pos_of_ne_zero fun hzero => ?_
    rw [hzero, Nat.zero_mul, roundTo53_of_lt (by decide)] at hround
    omega
  · refine ⟨fun hlt => ?_, hnear.lt_of_lt hlow⟩
    by_contra hge
    rcases Nat.eq_or_lt_of_le (Nat.le_of_not_lt hge) with heq | hgt
    · -- the number is `10^21` itself, which is found with one digit
      have hq : q = 17 := by
        rw [← heq] at hlog
        have hvalue : Nat.log2 (10 ^ 21) = 69 := by decide +kernel
        omega
      subst hq
      have hm : m = 7629394531250000 := by omega
      subst hm
      have hone : shortest 7629394531250000 ((17 : Nat) : Int) = ⟨1, 21⟩ := by decide +kernel
      rw [hone] at hk hlt
      have hk : (21 : Int) = k := hk
      obtain rfl : k = 21 := by omega
      exact absurd hlt (by decide)
    · have hle := hnear.le_of_lt hlow hhigh hgt
      omega

/-- **Below `10^21` the text of a size is read as the size.** -/
theorem sizeText_digits {n : Nat} (h : Held n) (hlt : n < 10 ^ 21) :
    (sizeText n).toList ≠ [] ∧ (∀ c ∈ (sizeText n).toList, c.isDigit = true) ∧
      nearest? (ofDigits (sizeText n).toList) = some n := by
  have hdigits : ∀ d c, c ∈ Nat.toDigits 10 d → c.isDigit = true := fun d c hc =>
    Nat.isDigit_of_mem_toDigits (by decide) (by decide) hc
  by_cases hn : n < 2 ^ 53
  · have htext : (sizeText n).toList = Nat.toDigits 10 n := by
      rw [sizeText_of_lt hn, Nat.toString_eq_repr, Nat.repr_eq_ofList_toDigits,
        String.toList_ofList]
    have hvalue : ofDigits (Nat.toDigits 10 n) = n := Nat.ofDigitChars_ten_toDigits
    rw [htext, hvalue]
    exact ⟨Nat.toDigits_ne_nil, hdigits n, h⟩
  · obtain ⟨d, k, htext, hk, hpos, hround, hside⟩ := exists_digits h (Nat.le_of_not_lt hn)
    rw [htext, write_of_lt hk hpos (hside.2 hlt), ofDigits_append_zeros]
    refine ⟨?_, fun c hc => ?_, ?_⟩
    · exact List.append_ne_nil_of_left_ne_nil Nat.toDigits_ne_nil _
    · rcases List.mem_append.1 hc with hc | hc
      · exact hdigits _ c hc
      · rw [List.eq_of_mem_replicate hc]
        decide
    · exact nearest?_eq_some_iff.2 ⟨hround, (nearest?_eq_some_iff.1 h).2⟩

/-- **From `10^21` on the text of a size has a plus sign.** -/
theorem plus_mem_sizeText {n : Nat} (h : Held n) (hle : 10 ^ 21 ≤ n) :
    '+' ∈ (sizeText n).toList := by
  obtain ⟨d, k, htext, hk, hpos, -, hside⟩ := exists_digits h (by omega)
  rw [htext]
  refine plus_mem_write hk hpos ?_
  by_contra hlt
  have hn := hside.1 (Nat.lt_of_not_le hlt)
  omega

end SchemaFlow.Decimal
