import Mathlib.Tactic.Linarith
import Mathlib.Tactic.Ring
import SchemaFlow.Decimal.Nearest

/-!
# Rounding to 53 binary digits

A number of more than 53 binary digits lies between two neighbours `w · 2^s` and `(w + 1) · 2^s`, of
which it goes to the nearer. Rounding again changes nothing; and whatever lies in the interval of a
rounded number, no further away than half the way to its neighbours, goes to that number.

* `roundTo53_of_unit`: where a number between two neighbours goes.
* `roundTo53_idem`: rounding again changes nothing.
* `Near.roundTo53`: what is in the interval of a rounded number goes to it.
-/

namespace SchemaFlow.Decimal

/-! ## 1. Neighbours -/

section Neighbours

variable {w s r : Nat}

theorem log2_of_unit (hlow : 2 ^ 52 ≤ w) (hhigh : w < 2 ^ 53) (hr : r < 2 ^ s) :
    Nat.log2 (w * 2 ^ s + r) = 52 + s := by
  have hone : 1 ≤ 2 ^ s := Nat.one_le_two_pow
  have hbelow : 2 ^ 52 * 2 ^ s ≤ w * 2 ^ s := Nat.mul_le_mul_right _ hlow
  have habove : (w + 1) * 2 ^ s ≤ 2 ^ 53 * 2 ^ s := Nat.mul_le_mul_right _ hhigh
  rw [Nat.add_mul, Nat.one_mul] at habove
  refine (Nat.log2_eq_iff (by omega)).2 ⟨?_, ?_⟩
  · rw [Nat.pow_add]
    omega
  · rw [show 52 + s + 1 = 53 + s by omega, Nat.pow_add]
    omega

/-- **Where a number between two neighbours goes**: to the nearer, or to the even one. -/
theorem roundTo53_of_unit (hs : 0 < s) (hlow : 2 ^ 52 ≤ w) (hhigh : w < 2 ^ 53) (hr : r < 2 ^ s) :
    roundTo53 (w * 2 ^ s + r) =
      if 2 * r < 2 ^ s then w * 2 ^ s
      else if 2 ^ s < 2 * r then (w + 1) * 2 ^ s
      else (w + w % 2) * 2 ^ s := by
  have htwo : 2 ^ 1 ≤ 2 ^ s := Nat.pow_le_pow_right (by decide) hs
  have hbig : ¬ w * 2 ^ s + r < 2 ^ 53 := by
    have hmul : 2 ^ 52 * 2 ^ 1 ≤ w * 2 ^ s := Nat.mul_le_mul hlow htwo
    omega
  have hpos : 0 < 2 ^ s := Nat.two_pow_pos s
  have hdiv : (w * 2 ^ s + r) / 2 ^ s = w := by
    rw [Nat.add_comm, Nat.add_mul_div_right _ _ hpos, Nat.div_eq_of_lt hr, Nat.zero_add]
  have hmod : (w * 2 ^ s + r) % 2 ^ s = r := by
    rw [Nat.add_comm, Nat.add_mul_mod_self_right, Nat.mod_eq_of_lt hr]
  have hshift : 52 + s - 52 = s := by omega
  simp only [roundTo53, Nat.pow_eq, if_neg hbig, log2_of_unit hlow hhigh hr, hshift, hdiv, hmod]

/-- A large number lies between two neighbours. -/
theorem exists_unit {n : Nat} (hn : 2 ^ 53 ≤ n) : ∃ w s r,
    n = w * 2 ^ s + r ∧ 0 < s ∧ 2 ^ 52 ≤ w ∧ w < 2 ^ 53 ∧ r < 2 ^ s := by
  have hne : n ≠ 0 := by omega
  have hlog : 53 ≤ Nat.log2 n := (Nat.le_log2 hne).2 hn
  have hself := Nat.log2_self_le hne
  have hlt := Nat.lt_log2_self (n := n)
  obtain ⟨s, hs⟩ : ∃ s, Nat.log2 n = 52 + s := Nat.exists_eq_add_of_le (by omega)
  rw [hs] at hself hlt
  rw [Nat.pow_add] at hself
  rw [show 52 + s + 1 = 53 + s by omega, Nat.pow_add] at hlt
  have hpos : 0 < 2 ^ s := Nat.two_pow_pos s
  refine ⟨n / 2 ^ s, s, n % 2 ^ s, ?_, by omega, ?_, ?_, Nat.mod_lt _ hpos⟩
  · rw [Nat.mul_comm]
    exact (Nat.div_add_mod n (2 ^ s)).symm
  · exact (Nat.le_div_iff_mul_le hpos).2 hself
  · exact (Nat.div_lt_iff_lt_mul hpos).2 hlt

/-- A number of 53 digits stays, however many zeros follow; so does the next power of two. -/
theorem roundTo53_scaled (hlow : 2 ^ 52 ≤ w) (hhigh : w ≤ 2 ^ 53) (hs : 0 < s) :
    roundTo53 (w * 2 ^ s) = w * 2 ^ s := by
  have hsmaller : ∀ {w s : Nat}, 0 < s → 2 ^ 52 ≤ w → w < 2 ^ 53 →
      roundTo53 (w * 2 ^ s) = w * 2 ^ s := by
    intro w s hs hlow hlt
    have hround := roundTo53_of_unit hs hlow hlt (Nat.two_pow_pos s)
    rw [Nat.add_zero, Nat.mul_zero, if_pos (Nat.two_pow_pos s)] at hround
    exact hround
  rcases Nat.lt_or_eq_of_le hhigh with hlt | rfl
  · exact hsmaller hs hlow hlt
  · have hshift : 2 ^ 53 * 2 ^ s = 2 ^ 52 * 2 ^ (s + 1) := by
      rw [Nat.pow_succ]
      ring
    rw [hshift]
    exact hsmaller (Nat.succ_pos s) (Nat.le_refl _) (by decide)

end Neighbours

/-! ## 2. Numbers that are held -/

theorem roundTo53_of_lt {n : Nat} (h : n < 2 ^ 53) : roundTo53 n = n := by
  simp only [roundTo53, Nat.pow_eq, if_pos h]

/-- **Rounding again changes nothing.** -/
theorem roundTo53_idem (n : Nat) : roundTo53 (roundTo53 n) = roundTo53 n := by
  by_cases hn : n < 2 ^ 53
  · rw [roundTo53_of_lt hn, roundTo53_of_lt hn]
  · obtain ⟨w, s, r, rfl, hs, hlow, hhigh, hr⟩ := exists_unit (Nat.le_of_not_lt hn)
    rw [roundTo53_of_unit hs hlow hhigh hr]
    split
    · exact roundTo53_scaled hlow (Nat.le_of_lt hhigh) hs
    · split
      · exact roundTo53_scaled (by omega) (by omega) hs
      · exact roundTo53_scaled (by omega) (by omega) hs

theorem nearest?_eq_some_iff {n m : Nat} :
    nearest? n = some m ↔ roundTo53 n = m ∧ Nat.log2 m < 1024 := by
  simp only [nearest?]
  constructor
  · intro h
    split at h
    · rename_i hlog
      cases h
      exact ⟨rfl, hlog⟩
    · cases h
  · rintro ⟨rfl, hlog⟩
    rw [if_pos hlog]

/-- A number is held if a double is it. -/
def Held (n : Nat) : Prop := nearest? n = some n

/-- What a number is rounded to is held. -/
theorem held_of_nearest? {n m : Nat} (h : nearest? n = some m) : Held m := by
  obtain ⟨rfl, hlog⟩ := nearest?_eq_some_iff.1 h
  exact nearest?_eq_some_iff.2 ⟨roundTo53_idem n, hlog⟩

/-- A large number that is held has 53 digits and then zeros. -/
theorem Held.exists_scaled {n : Nat} (h : Held n) (hn : 2 ^ 53 ≤ n) :
    ∃ m q, n = m * 2 ^ q ∧ 0 < q ∧ 2 ^ 52 ≤ m ∧ m < 2 ^ 53 := by
  obtain ⟨hround, -⟩ := nearest?_eq_some_iff.1 h
  obtain ⟨w, s, r, rfl, hs, hlow, hhigh, hr⟩ := exists_unit hn
  have hzero : r = 0 := by
    rw [roundTo53_of_unit hs hlow hhigh hr] at hround
    have hnext : (w + 1) * 2 ^ s = w * 2 ^ s + 2 ^ s := by ring
    split at hround
    · omega
    · split at hround
      · omega
      · rcases Nat.mod_two_eq_zero_or_one w with hw | hw
        · rw [hw, Nat.add_zero] at hround
          omega
        · rw [hw] at hround
          omega
  subst hzero
  exact ⟨w, s, rfl, hs, hlow, hhigh⟩

/-! ## 3. The interval of a number -/

/-- A number is in the interval of `m · 2^q`: half the way to the neighbours at most, and less than
    that unless `m` is even. The neighbour below a power of two is half as far away. -/
structure Near (m q n : Nat) : Prop where
  low : (4 * m - (if m = 2 ^ 52 then 1 else 2)) * 2 ^ q ≤ 4 * n
  high : 4 * n ≤ (4 * m + 2) * 2 ^ q
  strict : m % 2 = 1 → (4 * m - 2) * 2 ^ q < 4 * n ∧ 4 * n < (4 * m + 2) * 2 ^ q

/-- A number at most half a unit above another goes to it. -/
theorem roundTo53_of_above {m q r : Nat} (hq : 0 < q) (hlow : 2 ^ 52 ≤ m) (hhigh : m < 2 ^ 53)
    (hr : 2 * r ≤ 2 ^ q) (heven : 2 * r = 2 ^ q → m % 2 = 0) :
    roundTo53 (m * 2 ^ q + r) = m * 2 ^ q := by
  have hpos : 0 < 2 ^ q := Nat.two_pow_pos q
  rw [roundTo53_of_unit hq hlow hhigh (by omega)]
  rcases Nat.lt_or_eq_of_le hr with hlt | heq
  · rw [if_pos hlt]
  · rw [if_neg (by omega), if_neg (by omega), heven heq, Nat.add_zero]

/-- A number at most half a unit below another goes to it. -/
theorem roundTo53_of_below {w q r : Nat} (hq : 0 < q) (hlow : 2 ^ 52 ≤ w) (hhigh : w < 2 ^ 53)
    (hlt : r < 2 ^ q) (hr : 2 ^ q ≤ 2 * r) (hodd : 2 ^ q = 2 * r → w % 2 = 1) :
    roundTo53 (w * 2 ^ q + r) = (w + 1) * 2 ^ q := by
  rw [roundTo53_of_unit hq hlow hhigh hlt, if_neg (by omega)]
  rcases Nat.lt_or_eq_of_le hr with hgt | heq
  · rw [if_pos hgt]
  · rw [if_neg (by omega), hodd heq]

/-- **What is in the interval of a number goes to it.** -/
theorem Near.roundTo53 {m q n : Nat} (h : Near m q n) (hq : 0 < q) (hlow : 2 ^ 52 ≤ m)
    (hhigh : m < 2 ^ 53) : roundTo53 n = m * 2 ^ q := by
  have hpos : 0 < 2 ^ q := Nat.two_pow_pos q
  have hup := h.high
  have hdown := h.low
  have hstrict := h.strict
  have hfour : (4 * m + 2) * 2 ^ q = 4 * (m * 2 ^ q) + 2 * 2 ^ q := by ring
  rw [hfour] at hup hstrict
  by_cases hn : m * 2 ^ q ≤ n
  · obtain ⟨r, rfl⟩ := Nat.exists_eq_add_of_le hn
    refine roundTo53_of_above hq hlow hhigh (by omega) fun heq => ?_
    rcases Nat.mod_two_eq_zero_or_one m with hm | hm
    · exact hm
    · have hlt := (hstrict hm).2
      omega
  · by_cases hm : m = 2 ^ 52
    · -- the neighbour below has one digit more behind the point
      subst hm
      obtain ⟨p, rfl⟩ : ∃ p, q = p + 1 := Nat.exists_eq_add_one_of_ne_zero (by omega)
      rw [if_pos rfl, Nat.pow_succ] at hdown
      rw [Nat.pow_succ] at hn ⊢
      have hp : 0 < p := by
        rcases Nat.eq_zero_or_pos p with rfl | hp
        · omega
        · exact hp
      obtain ⟨r, rfl⟩ : ∃ r, n = (2 ^ 53 - 1) * 2 ^ p + r :=
        Nat.exists_eq_add_of_le (by omega)
      rw [roundTo53_of_below hp (by decide) (by decide) (by omega) (by omega) (fun _ => by decide)]
      omega
    · rw [if_neg hm] at hdown
      obtain ⟨w, rfl⟩ : ∃ w, m = w + 1 := Nat.exists_eq_add_one_of_ne_zero (by omega)
      have hsub : (4 * (w + 1) - 2) * 2 ^ q = 4 * (w * 2 ^ q) + 2 * 2 ^ q := by
        rw [show 4 * (w + 1) - 2 = 4 * w + 2 by omega]
        ring
      have hnext : (w + 1) * 2 ^ q = w * 2 ^ q + 2 ^ q := by ring
      rw [hsub] at hdown hstrict
      rw [hnext] at hn
      obtain ⟨r, rfl⟩ : ∃ r, n = w * 2 ^ q + r := Nat.exists_eq_add_of_le (by omega)
      refine roundTo53_of_below hq (by omega) (by omega) (by omega) (by omega) fun heq => ?_
      rcases Nat.mod_two_eq_zero_or_one w with hw | hw
      · have hlt := (hstrict (by omega)).1
        omega
      · exact hw

end SchemaFlow.Decimal
