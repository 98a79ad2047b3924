import Mathlib.Data.Nat.Bitwise
import Mathlib.Tactic.Ring

/-!
# Iterating over the set bits of a word

A loop that takes the lowest set bit with a count of trailing zeros and clears it, with `m & -m` or
with `m & (m - 1)`, visits exactly the set bits. `setBits` and `popBits` are these loops on `w`-bit
words, `mem_setBits` says what they visit, and `setBits_induction` and `popBits_induction` are the rules
for what is done on the way. Masking the low bits off a word rounds it down to a multiple of a power of two.
-/

namespace Bits

/-- Number of trailing zeros of a `w`-bit word (`w` for the zero word). -/
def ctz : ℕ → ℕ → ℕ
  | 0, _ => 0
  | w + 1, m => if m % 2 = 1 then 0 else ctz w (m / 2) + 1

/-- The lowest set bit `m & -m`, with the negation of `w`-bit two's complement. -/
def lowBit (w m : ℕ) : ℕ := m &&& (2 ^ w - m)

/-- Positions of the set bits in the order in which `ctz` and `m ^= m & -m` produce them. -/
def setBits (w : ℕ) : ℕ → ℕ → List ℕ
  | 0, _ => []
  | fuel + 1, m => if m = 0 then [] else ctz w m :: setBits w fuel (m ^^^ lowBit w m)

/-- Positions of the set bits in the order in which `ctz` and `m &= m - 1` produce them. -/
def popBits (w : ℕ) : ℕ → ℕ → List ℕ
  | 0, _ => []
  | fuel + 1, m => if m = 0 then [] else ctz w m :: popBits w fuel (m &&& (m - 1))

/-- A nonzero `w`-bit word is an odd number shifted left by its trailing zeros. -/
theorem exists_odd_of_ctz {w m : ℕ} (hm : m ≠ 0) (hw : m < 2 ^ w) :
    ctz w m < w ∧ ∃ q, m = 2 ^ ctz w m * (2 * q + 1) := by
  induction w generalizing m with
  | zero => omega
  | succ w ih =>
      simp only [ctz]
      split
      · exact ⟨by omega, m / 2, by omega⟩
      · have hdiv : m / 2 < 2 ^ w := by rw [pow_succ] at hw; omega
        obtain ⟨hlt, q, hq⟩ := ih (m := m / 2) (by omega) hdiv
        refine ⟨by omega, q, ?_⟩
        have hm2 : m = 2 * (m / 2) := by omega
        rw [pow_succ]
        calc m = 2 * (m / 2) := hm2
          _ = 2 * (2 ^ ctz w (m / 2) * (2 * q + 1)) := by rw [← hq]
          _ = 2 ^ ctz w (m / 2) * 2 * (2 * q + 1) := by ring

/-- `m & -m` is the power of two at the lowest set bit. -/
theorem lowBit_eq {w m : ℕ} (hm : m ≠ 0) (hw : m < 2 ^ w) : lowBit w m = 2 ^ ctz w m := by
  obtain ⟨hlt, q, hq⟩ := exists_odd_of_ctz hm hw
  generalize ctz w m = c at hlt hq ⊢
  have hpow : 0 < 2 ^ c := Nat.two_pow_pos c
  have hpred : m - 1 = 2 ^ c * (2 * q) + (2 ^ c - 1) := by
    rw [hq, Nat.mul_add, Nat.mul_one]; omega
  have hneg : 2 ^ w - m = 2 ^ w - ((m - 1) + 1) := by congr 1; omega
  refine Nat.eq_of_testBit_eq fun i => ?_
  rw [lowBit, Nat.testBit_and, hneg, Nat.testBit_two_pow_sub_succ (by omega),
    Nat.testBit_two_pow, hpred, Nat.testBit_two_pow_mul_add _ (by omega), hq,
    Nat.testBit_two_pow_mul]
  rcases lt_trichotomy i c with hi | rfl | hi
  · have hne : c ≠ i := by omega
    simp [hne, Nat.not_le.mpr hi]
  · simp [hlt]
  · -- above the lowest set bit `m` and `m - 1` have the same bits
    obtain ⟨k, hk⟩ : ∃ k, i - c = k + 1 := ⟨i - c - 1, by omega⟩
    have hne : c ≠ i := by omega
    have hge : c ≤ i := by omega
    have hodd : (2 * q + 1).testBit (k + 1) = q.testBit k := by
      rw [Nat.testBit_succ]; congr 1; omega
    have heven : (2 * q).testBit (k + 1) = q.testBit k := by
      rw [Nat.testBit_succ]; congr 1; omega
    simpa [hne, hge, Nat.not_lt.mpr hge, hk, hodd, heven] using fun h _ => h

/-- The trailing zeros are zeros and the bit above them is set. -/
theorem testBit_ctz {w m : ℕ} (hm : m ≠ 0) (hw : m < 2 ^ w) :
    m.testBit (ctz w m) = true ∧ ∀ i < ctz w m, m.testBit i = false := by
  obtain ⟨-, q, hq⟩ := exists_odd_of_ctz hm hw
  generalize ctz w m = c at hq ⊢
  constructor
  · rw [hq, Nat.testBit_two_pow_mul]; simp
  · intro i hi
    rw [hq, Nat.testBit_two_pow_mul]; simp [Nat.not_le.mpr hi]

/-- Clearing the lowest set bit clears that bit and no other. -/
theorem testBit_xor_lowBit {w m : ℕ} (hm : m ≠ 0) (hw : m < 2 ^ w) (j : ℕ) :
    (m ^^^ lowBit w m).testBit j = (m.testBit j && decide (j ≠ ctz w m)) := by
  have hset := (testBit_ctz hm hw).1
  rw [lowBit_eq hm hw, Nat.testBit_xor, Nat.testBit_two_pow]
  by_cases hj : j = ctz w m
  · subst hj
    simp [hset]
  · simp [hj, Ne.symm hj]

private theorem setBits_induction_aux {w : ℕ} {P : ℕ → List ℕ → Prop} (hzero : P 0 [])
    (hpop : ∀ m l, m ≠ 0 → m < 2 ^ w → P (m ^^^ lowBit w m) l → P m (ctz w m :: l)) (fuel : ℕ)
    {m k : ℕ} (hw : m < 2 ^ w) (hlow : ∀ i < k, m.testBit i = false) (hfuel : w ≤ fuel + k) :
    P m (setBits w fuel m) := by
  -- `k` bounds the part of the word that is already cleared; each pass moves it past `ctz`
  induction fuel generalizing m k with
  | zero =>
      have hm : m = 0 := by
        refine Nat.eq_of_testBit_eq fun j => ?_
        rw [Nat.zero_testBit]
        by_cases hj : j < k
        · exact hlow j hj
        · exact Nat.testBit_lt_two_pow (lt_of_lt_of_le hw
            (Nat.pow_le_pow_right (by omega) (by omega)))
      rwa [hm]
  | succ fuel ih =>
      rw [setBits]
      split
      · rename_i hm
        rwa [hm]
      · rename_i hm
        obtain ⟨hset, hbelow⟩ := testBit_ctz hm hw
        have hkc : k ≤ ctz w m := by
          by_contra hlt
          rw [hlow _ (by omega)] at hset
          exact absurd hset (by simp)
        have hlt : m ^^^ lowBit w m < 2 ^ w := by
          apply Nat.xor_lt_two_pow hw
          rw [lowBit_eq hm hw]
          exact Nat.pow_lt_pow_right (by omega) (exists_odd_of_ctz hm hw).1
        apply hpop m _ hm hw
        apply ih (k := ctz w m + 1) hlt _ (by omega)
        intro j hj
        rw [testBit_xor_lowBit hm hw]
        rcases Nat.lt_succ_iff_lt_or_eq.mp hj with hj | hj
        · simp [hbelow j hj]
        · simp [hj]

/-- What the lowest-bit loop does to a word, by induction on the bits that are left in it. -/
theorem setBits_induction {w : ℕ} {P : ℕ → List ℕ → Prop} (hzero : P 0 [])
    (hpop : ∀ m l, m ≠ 0 → m < 2 ^ w → P (m ^^^ lowBit w m) l → P m (ctz w m :: l)) {m : ℕ}
    (hw : m < 2 ^ w) : P m (setBits w w m) :=
  setBits_induction_aux (k := 0) hzero hpop w hw (by simp) (by omega)

/-- The lowest-bit loop visits exactly the set bits. -/
theorem mem_setBits {w m : ℕ} (hw : m < 2 ^ w) (i : ℕ) :
    i ∈ setBits w w m ↔ m.testBit i = true := by
  apply setBits_induction (P := fun m l => i ∈ l ↔ m.testBit i = true) _ _ hw
  · simp
  · intro m l hm hw ih
    rw [List.mem_cons, ih, testBit_xor_lowBit hm hw]
    by_cases hi : i = ctz w m
    · simp [hi, (testBit_ctz hm hw).1]
    · simp [hi]

/-- `m & (m - 1)` clears the lowest set bit, as `m ^ (m & -m)` does. -/
theorem and_sub_one_eq_xor_lowBit {w m : ℕ} (hm : m ≠ 0) (hw : m < 2 ^ w) :
    m &&& (m - 1) = m ^^^ lowBit w m := by
  rw [lowBit_eq hm hw]
  obtain ⟨-, q, hq⟩ := exists_odd_of_ctz hm hw
  generalize ctz w m = c at hq
  have hpos := Nat.two_pow_pos c
  have hpred : m - 1 = 2 ^ c * (2 * q) + (2 ^ c - 1) := by
    rw [hq, Nat.mul_add, Nat.mul_one]
    omega
  apply Nat.eq_of_testBit_eq
  intro i
  rw [Nat.testBit_and, Nat.testBit_xor, Nat.testBit_two_pow, hpred,
    Nat.testBit_two_pow_mul_add _ (by omega), hq, Nat.testBit_two_pow_mul]
  rcases lt_trichotomy i c with hi | rfl | hi
  · have hne : c ≠ i := by omega
    simp [hne, Nat.not_le.mpr hi]
  · simp
  · obtain ⟨k, hk⟩ : ∃ k, i - c = k + 1 := ⟨i - c - 1, by omega⟩
    have hne : c ≠ i := by omega
    have hge : c ≤ i := by omega
    have hodd : (2 * q + 1).testBit (k + 1) = q.testBit k := by
      rw [Nat.testBit_succ]; congr 1; omega
    have heven : (2 * q).testBit (k + 1) = q.testBit k := by
      rw [Nat.testBit_succ]; congr 1; omega
    simp [hne, hge, Nat.not_lt.mpr hge, hk, hodd, heven]

theorem popBits_eq_setBits {w fuel m : ℕ} (hw : m < 2 ^ w) : popBits w fuel m = setBits w fuel m := by
  induction fuel generalizing m with
  | zero => rfl
  | succ fuel ih =>
      rw [popBits, setBits]
      by_cases hm : m = 0
      · rw [if_pos hm, if_pos hm]
      · rw [if_neg hm, if_neg hm, ← and_sub_one_eq_xor_lowBit hm hw,
          ih (Nat.and_le_left.trans_lt hw)]

/-- The induction rule for the loop with `m & (m - 1)`. -/
theorem popBits_induction {w : ℕ} {P : ℕ → List ℕ → Prop} (hzero : P 0 [])
    (hpop : ∀ m l, m ≠ 0 → P (m &&& (m - 1)) l → P m (ctz w m :: l)) {m : ℕ} (hw : m < 2 ^ w) :
    P m (popBits w w m) := by
  rw [popBits_eq_setBits hw]
  apply setBits_induction hzero _ hw
  intro m l hm hlt hrest
  rw [← and_sub_one_eq_xor_lowBit hm hlt] at hrest
  exact hpop m l hm hrest

/-- `x & ~(2 ^ k - 1)` on `w`-bit words rounds down to a multiple of `2 ^ k`. -/
theorem and_not_two_pow_sub_one {w k x : ℕ} (hk : k ≤ w) (hx : x < 2 ^ w) :
    x &&& (2 ^ w - 1 - (2 ^ k - 1)) = x / 2 ^ k * 2 ^ k := by
  have hpow : 2 ^ k ≤ 2 ^ w := Nat.pow_le_pow_right (by omega) hk
  have hpos := Nat.two_pow_pos k
  have hmask : 2 ^ w - 1 - (2 ^ k - 1) = 2 ^ w - ((2 ^ k - 1) + 1) := by omega
  refine Nat.eq_of_testBit_eq fun i => ?_
  rw [hmask, Nat.testBit_and, Nat.testBit_two_pow_sub_succ (by omega), Nat.testBit_two_pow_sub_one,
    Nat.testBit_mul_two_pow, Nat.testBit_div_two_pow]
  by_cases hki : k ≤ i
  · have hnot : ¬ i < k := by omega
    rw [Nat.sub_add_cancel hki]
    by_cases hiw : i < w
    · simp [hki, hnot, hiw]
    · have hzero : x.testBit i = false :=
        Nat.testBit_lt_two_pow (hx.trans_le (Nat.pow_le_pow_right (by omega) (by omega)))
      simp [hzero]
  · have hlt : i < k := by omega
    simp [hki, hlt]

theorem or_two_pow_of_testBit {x p : ℕ} (h : x.testBit p = true) : x ||| 2 ^ p = x := by
  apply Nat.eq_of_testBit_eq
  intro i
  rw [Nat.testBit_or, Nat.testBit_two_pow]
  by_cases hi : p = i
  · simp [← hi, h]
  · simp [hi]

/-- Setting a clear bit adds it. -/
theorem or_two_pow_of_not_testBit {x p : ℕ} (h : x.testBit p = false) :
    x ||| 2 ^ p = x + 2 ^ p := by
  have hbit : x / 2 ^ p % 2 = 0 := by
    rw [Nat.testBit_eq_decide_div_mod_eq, decide_eq_false_iff_not] at h
    omega
  have hlow : x % 2 ^ (p + 1) < 2 ^ p := by
    rw [Nat.mod_pow_succ, hbit, Nat.mul_zero, Nat.add_zero]
    exact Nat.mod_lt _ (Nat.two_pow_pos p)
  have hpow : 2 ^ (p + 1) = 2 * 2 ^ p := by ring
  calc x ||| 2 ^ p
      = 2 ^ (p + 1) * (x / 2 ^ (p + 1)) ||| x % 2 ^ (p + 1) ||| 2 ^ p := by
        rw [← Nat.two_pow_add_eq_or_of_lt (by omega), Nat.div_add_mod]
    _ = 2 ^ (p + 1) * (x / 2 ^ (p + 1)) + (x % 2 ^ (p + 1) + 2 ^ p) := by
        rw [Nat.or_assoc, Nat.or_two_pow_eq_add_of_lt hlow,
          ← Nat.two_pow_add_eq_or_of_lt (by omega)]
    _ = x + 2 ^ p := by rw [← Nat.add_assoc, Nat.div_add_mod]

end Bits
