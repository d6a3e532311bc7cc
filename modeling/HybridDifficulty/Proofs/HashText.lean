import HybridDifficulty.Hash
import Mathlib.Data.Nat.Digits.Defs
import Mathlib.Tactic.Ring

/-!
The text of a hash, its bytes and its number say the same. Sixty-four digits of either case are
read, after `0x` or without it, and the hash read shows them in lower case and has the number that
they denote.
-/

namespace HybridDifficulty

namespace Hex

variable {c hi lo : Char} {cs : List Char} {bs : List UInt8}

def IsDigit (c : Char) : Prop := c ∈ "0123456789abcdefABCDEF".toList

def worth (c : Char) : Nat := "0123456789abcdef".toList.idxOf c.toLower

/-- The number that digits denote, the most significant one first. -/
def number (cs : List Char) : Nat := Nat.ofDigits 16 (cs.map worth).reverse

theorem IsDigit.of_all {P : Char → Prop} [DecidablePred P] (h : IsDigit c)
    (hall : "0123456789abcdefABCDEF".toList.all fun c ↦ P c) : P c :=
  of_decide_eq_true (List.all_eq_true.1 hall c h)

theorem digitValue?_of_isDigit (h : IsDigit c) : digitValue? c = some (worth c) :=
  h.of_all (P := fun c ↦ digitValue? c = some (worth c)) (by decide)

theorem worth_lt (h : IsDigit c) : worth c < 16 := h.of_all (P := fun c ↦ worth c < 16) (by decide)

theorem digitChar_worth (h : IsDigit c) : Nat.digitChar (worth c) = c.toLower :=
  h.of_all (P := fun c ↦ Nat.digitChar (worth c) = c.toLower) (by decide)

theorem isDigit_digitChar {n : Nat} (h : n < 16) :
    IsDigit (Nat.digitChar n) ∧ worth (Nat.digitChar n) = n := by
  have hall : ∀ n < 16, Nat.digitChar n ∈ "0123456789abcdefABCDEF".toList ∧
      worth (Nat.digitChar n) = n := by decide
  exact hall n h

theorem isDigit_of_between {first last : Char}
    (hall : ∀ n < last.toNat + 1, first.toNat ≤ n → IsDigit (Char.ofNat n))
    (h : first ≤ c ∧ c ≤ last) : IsDigit c := by
  have hfirst : first.toNat ≤ c.toNat := h.1
  have hlast : c.toNat ≤ last.toNat := h.2
  rw [← Char.ofNat_toNat c]
  exact hall _ (Nat.lt_succ_of_le hlast) hfirst

theorem isDigit_of_digitValue? {n : Nat} (h : digitValue? c = some n) : IsDigit c := by
  unfold digitValue? at h
  split at h
  · next hc => exact isDigit_of_between (by unfold IsDigit; decide) hc
  · split at h
    · next hc => exact isDigit_of_between (by unfold IsDigit; decide) hc
    · split at h
      · next hc => exact isDigit_of_between (by unfold IsDigit; decide) hc
      · cases h

/-- The bytes that digits stand for, two for each. -/
inductive Pairs : List Char → List UInt8 → Prop
  | nil : Pairs [] []
  | cons {hi lo : Char} {cs : List Char} {bs : List UInt8} : IsDigit hi → IsDigit lo → Pairs cs bs →
      Pairs (hi :: lo :: cs) (.ofNat (16 * worth hi + worth lo) :: bs)

theorem Pairs.decode?_eq (h : Pairs cs bs) : decode? cs = some bs := by
  induction h with
  | nil => rfl
  | cons hhi hlo _ ih => simp [decode?, digitValue?_of_isDigit hhi, digitValue?_of_isDigit hlo, ih]

theorem pairs_of_decode? : ∀ {cs : List Char} {bs : List UInt8}, decode? cs = some bs → Pairs cs bs
  | [], bs, h => by
    cases h
    exact .nil
  | hi :: lo :: cs, bs, h => by
    obtain ⟨m, hm, h⟩ := Option.bind_eq_some_iff.1 h
    obtain ⟨n, hn, h⟩ := Option.bind_eq_some_iff.1 h
    obtain ⟨bs', hbs', h⟩ := Option.bind_eq_some_iff.1 h
    cases h
    have hhi := isDigit_of_digitValue? hm
    have hlo := isDigit_of_digitValue? hn
    rw [digitValue?_of_isDigit hhi, Option.some.injEq] at hm
    rw [digitValue?_of_isDigit hlo, Option.some.injEq] at hn
    rw [← hm, ← hn]
    exact .cons hhi hlo (pairs_of_decode? hbs')

theorem Pairs.isDigit (h : Pairs cs bs) : ∀ c ∈ cs, IsDigit c := by
  induction h with
  | nil => simp
  | cons hhi hlo _ ih =>
    intro c hc
    rcases List.mem_cons.1 hc with rfl | hc
    · exact hhi
    · rcases List.mem_cons.1 hc with rfl | hc
      · exact hlo
      · exact ih c hc

theorem Pairs.length_eq (h : Pairs cs bs) : cs.length = 2 * bs.length := by
  induction h with
  | nil => rfl
  | cons _ _ _ ih =>
    simp only [List.length_cons]
    omega

theorem toNat_pair (hhi : IsDigit hi) (hlo : IsDigit lo) :
    (UInt8.ofNat (16 * worth hi + worth lo)).toNat = 16 * worth hi + worth lo := by
  have h₁ := worth_lt hhi
  have h₂ := worth_lt hlo
  rw [UInt8.toNat_ofNat']
  omega

theorem Pairs.encode_eq (h : Pairs cs bs) : encode bs = cs.map Char.toLower := by
  induction h with
  | nil => rfl
  | @cons hi lo cs bs hhi hlo _ ih =>
    have hlt := worth_lt hlo
    have hdiv : (16 * worth hi + worth lo) / 16 = worth hi := by omega
    have hmod : (16 * worth hi + worth lo) % 16 = worth lo := by omega
    rw [encode, toNat_pair hhi hlo, hdiv, hmod, digitChar_worth hhi, digitChar_worth hlo, ih]
    rfl

theorem Pairs.number_eq (h : Pairs cs bs) :
    number cs = Nat.ofDigits 256 (bs.map UInt8.toNat).reverse := by
  induction h with
  | nil => rfl
  | @cons hi lo cs bs hhi hlo h ih =>
    -- the digits that follow are twice as many as the bytes that follow, so the weights agree
    have hpow : 16 ^ cs.length = 256 ^ bs.length := by rw [h.length_eq, Nat.pow_mul]
    rw [number] at ih ⊢
    simp only [List.map_cons, Nat.ofDigits_reverse_cons, List.length_cons, List.length_map,
      Nat.pow_succ, ih, hpow, toNat_pair hhi hlo]
    ring

/-- Digits that are even in number stand for bytes. -/
theorem exists_pairs : ∀ {n : Nat} {cs : List Char}, (∀ c ∈ cs, IsDigit c) → cs.length = 2 * n →
    ∃ bs, Pairs cs bs := by
  intro n
  induction n with
  | zero =>
    intro cs _ hlen
    rw [List.length_eq_zero_iff.1 hlen]
    exact ⟨[], .nil⟩
  | succ n ih =>
    intro cs hdigit hlen
    match cs with
    | [] => simp at hlen
    | [_] => simp at hlen; omega
    | hi :: lo :: cs =>
      obtain ⟨bs, h⟩ :=
        ih (fun c hc ↦ hdigit c (by simp [hc])) (by simp at hlen; omega : cs.length = 2 * n)
      exact ⟨_, .cons (hdigit hi (by simp)) (hdigit lo (by simp)) h⟩

theorem pairs_encode (bs : List UInt8) : Pairs (encode bs) bs := by
  induction bs with
  | nil => exact .nil
  | cons b bs ih =>
    have hb := b.toNat_lt
    obtain ⟨hhi, hhi'⟩ := isDigit_digitChar (n := b.toNat / 16) (by omega)
    obtain ⟨hlo, hlo'⟩ := isDigit_digitChar (n := b.toNat % 16) (by omega)
    have h := Pairs.cons hhi hlo ih
    rw [hhi', hlo', Nat.div_add_mod, UInt8.ofNat_toNat] at h
    exact h

end Hex

namespace Hash

open Hex

variable {text : String} {ds : List Char} {bs : List UInt8} {h : Hash}

theorem ofList?_eq_some_iff : ofList? bs = some h ↔ h.toList = bs := by
  obtain ⟨⟨⟨xs⟩, hxs⟩⟩ := h
  rw [ofList?, toList]
  split
  · next hlen =>
    rw [Option.some.injEq, mk.injEq]
    simp [Vector.toList, eq_comm]
  · next hlen =>
    simp only [reduceCtorEq, false_iff]
    rintro rfl
    exact hlen (by simpa using hxs)

theorem length_toList (h : Hash) : h.toList.length = 32 := by simp [toList]

theorem toNat_eq (h : Hash) : h.toNat = Nat.ofDigits 256 (h.toList.map UInt8.toNat) := by
  rw [toNat, Nat.ofDigits_eq_foldr, List.foldr_map]
  rfl

theorem dropMark_of_isDigit (hds : ∀ c ∈ ds, IsDigit c) : dropMark ds = ds := by
  unfold dropMark
  split
  · have hx : ¬ IsDigit 'x' := by unfold IsDigit; decide
    exact absurd (hds 'x' (by simp)) hx
  · rfl

/-- Texts of these digits, marked as a number or not. -/
def Spells (text : String) (ds : List Char) : Prop :=
  (text = String.ofList ds ∨ text = "0x" ++ String.ofList ds) ∧ ds.length = 64 ∧ ∀ c ∈ ds, IsDigit c

theorem Spells.dropMark_eq (h : Spells text ds) : dropMark text.toList = ds := by
  obtain ⟨rfl | rfl, -, hds⟩ := h
  · rw [String.toList_ofList]
    exact dropMark_of_isDigit hds
  · simp only [String.toList_append, String.toList_ofList]
    rfl

theorem ofDisplay?_eq_some_iff :
    ofDisplay? text = some h ↔ Pairs (dropMark text.toList) h.toList.reverse := by
  constructor
  · intro hread
    obtain ⟨bs, hbs, hread⟩ := Option.bind_eq_some_iff.1 hread
    rw [ofList?_eq_some_iff.1 hread, List.reverse_reverse]
    exact pairs_of_decode? hbs
  · intro hpairs
    rw [ofDisplay?, hpairs.decode?_eq]
    exact ofList?_eq_some_iff.2 (List.reverse_reverse _).symm

theorem eq_dropMark (text : String) :
    text = String.ofList (dropMark text.toList) ∨
    text = "0x" ++ String.ofList (dropMark text.toList) := by
  simp only [← String.toList_inj, String.toList_append, String.toList_ofList]
  generalize text.toList = cs
  unfold dropMark
  split
  · exact .inr rfl
  · exact .inl rfl

structure TextLaws : Prop where
  read_iff : ∀ text, (∃ h, ofDisplay? text = some h) ↔ ∃ ds, Spells text ds
  denotes : ∀ text ds h, Spells text ds → ofDisplay? text = some h →
    h.display = String.ofList (ds.map Char.toLower) ∧ h.toNat = number ds
  restored : ∀ h, ofDisplay? h.display = some h

theorem textLaws : TextLaws where
  read_iff text := by
    constructor
    · rintro ⟨h, hread⟩
      rw [ofDisplay?_eq_some_iff] at hread
      have hlen := hread.length_eq
      rw [List.length_reverse, length_toList] at hlen
      exact ⟨_, eq_dropMark text, hlen, hread.isDigit⟩
    · rintro ⟨ds, hds⟩
      have hmark := hds.dropMark_eq
      obtain ⟨-, hlen, hdigit⟩ := hds
      obtain ⟨bs, hbs⟩ := exists_pairs (n := 32) hdigit hlen
      have hbytes : bs.reverse.length = 32 := by
        have hpairs := hbs.length_eq
        rw [List.length_reverse]
        omega
      obtain ⟨h, hh⟩ : ∃ h, ofList? bs.reverse = some h := ⟨_, dif_pos hbytes⟩
      refine ⟨h, ofDisplay?_eq_some_iff.2 ?_⟩
      rwa [hmark, ofList?_eq_some_iff.1 hh, List.reverse_reverse]
  denotes text ds h hds hread := by
    rw [ofDisplay?_eq_some_iff, hds.dropMark_eq] at hread
    constructor
    · rw [display, ofBytes, hread.encode_eq]
    · rw [hread.number_eq, toNat_eq, List.map_reverse, List.reverse_reverse]
  restored h := by
    have hpairs := pairs_encode h.toList.reverse
    rw [ofDisplay?_eq_some_iff, display, ofBytes, String.toList_ofList,
      dropMark_of_isDigit hpairs.isDigit]
    exact hpairs

end Hash

end HybridDifficulty
