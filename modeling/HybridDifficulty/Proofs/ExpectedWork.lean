import HybridDifficulty.Proofs.CompactLaws

/-!
The work that bits stand for is the whole part of `2 ^ 256 / (target + 1)`. No step towards it
leaves the words of 256 bits, and a harder target stands for no less work than an easier one.
-/

namespace HybridDifficulty.CompactForm

variable {t n : Nat} {bits a b : UInt32}

theorem isValid_iff : (decode bits).isValid = true ↔
    (decode bits).negative = false ∧ (decode bits).overflow = false ∧ target bits ≠ 0 := by
  simp [Decoded.isValid, target, and_assoc]

/-- Targets of more than three bytes are even, so none is the last number of 256 bits. -/
theorem target_add_one_lt (h : (decode bits).overflow = false) : target bits + 1 < 2 ^ 256 := by
  have hlt := target_lt_two_pow bits
  by_cases hsmall : target bits < 2 ^ 23
  · omega
  · have hgrid : target bits / unit (target bits) * unit (target bits) = target bits :=
      floor_target_of_not_overflow h
    have hdvd : unit (target bits) ∣ target bits := Dvd.intro_left _ hgrid
    have heven : 2 ∣ target bits :=
      (Nat.dvd_of_mod_eq_zero (unit_even (Nat.not_lt.1 hsmall))).trans hdvd
    omega

theorem complement_div (h : t < n) : (n - 1 - t) / (t + 1) + 1 = n / (t + 1) := by
  have hsub : n - 1 - t = n - (t + 1) := by omega
  rw [hsub, ← Nat.div_eq_sub_div (Nat.succ_pos t) h]

/-- The computation in words, which wrap around at 256 bits. -/
def wordWork (t : BitVec 256) : BitVec 256 := ~~~t / (t + 1) + 1

theorem toNat_wordWork {t : BitVec 256} (h0 : t.toNat ≠ 0) (h : t.toNat + 1 < 2 ^ 256) :
    (wordWork t).toNat = 2 ^ 256 / (t.toNat + 1) := by
  have hdivisor : (t + 1).toNat = t.toNat + 1 := by
    rw [BitVec.toNat_add]
    exact Nat.mod_eq_of_lt h
  have hquotient : (~~~t / (t + 1)).toNat = (2 ^ 256 - 1 - t.toNat) / (t.toNat + 1) := by
    rw [BitVec.toNat_udiv, BitVec.toNat_not, hdivisor]
  have hexact := complement_div (Nat.lt_of_succ_lt h)
  -- the divisor is at least two, so the last addition does not wrap
  have hfits : 2 ^ 256 / (t.toNat + 1) < 2 ^ 256 := Nat.div_lt_self (Nat.two_pow_pos _) (by omega)
  rw [wordWork, BitVec.toNat_add, hquotient, ← hexact]
  exact Nat.mod_eq_of_lt (hexact ▸ hfits)

theorem expectedWork_of_valid (h : (decode bits).isValid = true) :
    expectedWork bits = 2 ^ 256 / (target bits + 1) := by
  have hcomplement := complement_div (target_lt_two_pow bits)
  rw [target] at hcomplement
  simp only [expectedWork, if_pos h, byteWeight_32, target]
  exact hcomplement

/-- What holds of the work of all codes. -/
structure WorkLaws : Prop where
  eq_zero : ∀ bits, (decode bits).negative = true ∨ (decode bits).overflow = true ∨
    target bits = 0 → expectedWork bits = 0
  exact : ∀ bits, (decode bits).isValid = true →
    expectedWork bits = 2 ^ 256 / (target bits + 1) ∧ 1 ≤ expectedWork bits
  /-- The divisor is a word, and words give the same quotient. -/
  words : ∀ bits, (decode bits).isValid = true →
    target bits + 1 < 2 ^ 256 ∧ (wordWork (.ofNat 256 (target bits))).toNat = expectedWork bits
  anti : ∀ a b, (decode a).isValid = true → (decode b).isValid = true → target a ≤ target b →
    expectedWork b ≤ expectedWork a

theorem workLaws : WorkLaws where
  eq_zero bits h := by
    have hvalid : ¬ (decode bits).isValid = true := by
      rw [isValid_iff]
      rintro ⟨hneg, hover, h0⟩
      rcases h with h | h | h
      · exact Bool.false_ne_true (hneg.symm.trans h)
      · exact Bool.false_ne_true (hover.symm.trans h)
      · exact h0 h
    exact if_neg hvalid
  exact bits h := by
    have hlt := target_lt_two_pow bits
    rw [expectedWork_of_valid h]
    exact ⟨rfl, (Nat.one_le_div_iff (Nat.succ_pos _)).2 hlt⟩
  words bits h := by
    obtain ⟨-, hover, h0⟩ := isValid_iff.1 h
    have hlt := target_add_one_lt hover
    have hword : (BitVec.ofNat 256 (target bits)).toNat = target bits :=
      Nat.mod_eq_of_lt (target_lt_two_pow bits)
    rw [expectedWork_of_valid h, toNat_wordWork (by rwa [hword]) (by rwa [hword]), hword]
    exact ⟨hlt, rfl⟩
  anti a b ha hb h := by
    rw [expectedWork_of_valid ha, expectedWork_of_valid hb]
    exact Nat.div_le_div_left (Nat.succ_le_succ h) (Nat.succ_pos _)

example : expectedWork 0x1d00ffff = 0x100010001 := by decide

end HybridDifficulty.CompactForm
