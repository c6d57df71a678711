import LiveIsolation.Value
import Mathlib

/-!
# When values are equal

Values that are equal as a statement sees them are the same value, or they are the two zeros
(`Value.eq_or_opposite_of_same`). Numbers are compared in their parts, and the parts of a number
make up its bits (`Binary64.pack_unpack`), so that two numbers with the same parts have the same
bits. Only words that stand for `NaN` do not come back from their parts, and those equal nothing
(`Binary64.toBits_ofBits_of_beq`).
-/

namespace LiveIsolation

namespace Binary64
open Float.Model UnpackedFloat

/-- A word consists of its sign, its exponent and its mantissa. -/
theorem packComponents_unpack (b : BitVec Format.binary64.numBits) :
    packComponents .binary64 (Sign.ofBitVec (unpackSign b)) (unpackExponent b)
      (unpackMantissa b) = b := by
  have hsign : ∀ s : BitVec 1, (Sign.ofBitVec s).toBitVec = s := by decide
  simp only [packComponents, hsign, unpackSign, unpackExponent, unpackMantissa, BitVec.extractLsb]
  ext i hi
  grind

/-- A number whose mantissa has no implicit bit is packed with the exponent zero. -/
theorem pack_subnormal {s : Sign} {m : Nat} (hm : 0 < m) (hlt : m < 2 ^ 52) :
    UnpackedFloat.pack .binary64 (.finite s m (-1074) hm) =
      packComponents .binary64 s 0 (BitVec.ofNat _ m) := by
  have hlog : m.log2 < 52 := (Nat.log2_lt (Nat.ne_of_gt hm)).2 hlt
  have hbits : ¬m.log2 + 1 = Format.binary64.mantissaBits := by
    change ¬m.log2 + 1 = 53
    omega
  simp only [UnpackedFloat.pack]
  rw [if_neg (by decide), if_neg hbits]
  rfl

/-- A number whose mantissa has the implicit bit is packed without it. -/
theorem pack_normal {s : Sign} {m e : Nat} (hm : 0 < 2 ^ 52 + m) (hlt : m < 2 ^ 52)
    (he : e < 2047) :
    UnpackedFloat.pack .binary64 (.finite s (2 ^ 52 + m) ((e : Int) - 1075) hm) =
      packComponents .binary64 s (BitVec.ofNat _ e) (BitVec.ofNat _ m) := by
  have hlog : (2 ^ 52 + m).log2 = 52 := by
    rw [Nat.log2_eq_iff (Nat.ne_of_gt hm)]
    omega
  have hbias : ((e : Int) - 1075 + (Format.binary64.exponentBias : Nat) +
      (Format.binary64.mantissaBitsWithoutImplicit : Nat)).toNat = e := by
    have hone : ((Format.binary64.exponentBias : Nat) : Int) = 1023 := rfl
    have htwo : ((Format.binary64.mantissaBitsWithoutImplicit : Nat) : Int) = 52 := rfl
    omega
  have hmantissa : BitVec.ofNat 52 (2 ^ 52 + m) = BitVec.ofNat 52 m :=
    BitVec.eq_of_toNat_eq (by rw [BitVec.toNat_ofNat, BitVec.toNat_ofNat, Nat.add_mod_left])
  have hlarge : ¬2 ^ Format.binary64.exponentBits ≤ e + 1 := by
    change ¬2 ^ 11 ≤ e + 1
    omega
  have hbits : (2 ^ 52 + m).log2 + 1 = Format.binary64.mantissaBits := by
    rw [hlog]
    decide
  simp only [UnpackedFloat.pack]
  rw [hbias, if_neg hlarge, if_pos hbits]
  exact congrArg (packComponents .binary64 s _) hmantissa

/-- A word that is no other word for `NaN` is packed again from its parts. -/
theorem pack_unpack {b : BitVec Format.binary64.numBits} (hvalid : Format.binary64.Valid b) :
    UnpackedFloat.pack .binary64 (UnpackedFloat.unpack .binary64 b) = b := by
  have hparts : ∀ {e m}, unpackExponent b = e → unpackMantissa b = m →
      packComponents .binary64 (Sign.ofBitVec (unpackSign b)) e m = b := by
    rintro _ _ rfl rfl
    exact packComponents_unpack b
  have hmantissa : (unpackMantissa b).toNat < 2 ^ 52 := (unpackMantissa b).isLt
  simp only [UnpackedFloat.unpack]
  split
  · rename_i he
    split
    · rename_i hm
      exact hparts he hm
    · rename_i hm
      exact (hvalid.eq_packedNaN he hm).symm
  · rename_i hones
    split
    · rename_i he
      split
      · rename_i hm
        exact hparts he hm
      · rename_i hm
        have hexponent : ((unpackExponent b).toNat : Int) - ((Format.binary64.exponentBias : Nat) +
            (Format.binary64.mantissaBitsWithoutImplicit : Nat)) + 1 = -1074 := by
          rw [he]
          rfl
        simp only [hexponent]
        rw [pack_subnormal _ hmantissa]
        exact hparts he (by rw [BitVec.ofNat_toNat, BitVec.setWidth_eq])
    · rename_i hzero
      have he : (unpackExponent b).toNat < 2047 := by
        have hlt : (unpackExponent b).toNat < 2 ^ 11 := (unpackExponent b).isLt
        have hne : (unpackExponent b).toNat ≠ 2047 := fun h => hones (BitVec.eq_of_toNat_eq h)
        omega
      have himplicit : (1#1 ++ unpackMantissa b).toNat = 2 ^ 52 + (unpackMantissa b).toNat := by
        rw [BitVec.toNat_append]
        exact (Nat.two_pow_add_eq_or_of_lt hmantissa 1).symm
      simp only [himplicit]
      refine (pack_normal (Nat.add_pos_left (by decide) _) hmantissa he).trans ?_
      rw [BitVec.ofNat_toNat, BitVec.setWidth_eq, BitVec.ofNat_toNat, BitVec.setWidth_eq]
      exact hparts rfl rfl

/-- Only the two zeros are equal as numbers and not the same. -/
theorem eq_or_zeros_of_compare {u v : UnpackedFloat} (h : u.compare v = some .eq) :
    u = v ∨ ∃ s t, u = .zero s ∧ v = .zero t := by
  cases u with
  | notANumber => cases h
  | infinity s =>
      cases v with
      | infinity t =>
          cases s with
          | negative =>
              cases t with
              | negative => exact .inl rfl
              | positive => cases h
          | positive =>
              cases t with
              | negative => cases h
              | positive => exact .inl rfl
      | _ => cases s <;> cases h
  | zero s =>
      cases v with
      | zero t => exact .inr ⟨s, t, rfl, rfl⟩
      | notANumber => cases h
      | infinity t => cases t <;> cases h
      | finite t m e hm => cases t <;> cases h
  | finite s m e hm =>
      cases v with
      | notANumber => cases h
      | infinity t => cases t <;> cases s <;> cases h
      | zero t => cases s <;> cases h
      | finite t n k hn =>
          have hparts : ∀ {o : Ordering}, o = (compare e k).then (compare m n) → o = .eq →
              e = k ∧ m = n := by
            intro o ho heq
            obtain ⟨he, hm⟩ := Ordering.then_eq_eq.1 (ho.symm.trans heq)
            exact ⟨Int.compare_eq_eq.1 he, Nat.compare_eq_eq.1 hm⟩
          cases s with
          | negative =>
              cases t with
              | negative =>
                  obtain ⟨rfl, rfl⟩ := hparts rfl (Ordering.swap_eq_eq.1 (Option.some.inj h))
                  exact .inl rfl
              | positive => cases h
          | positive =>
              cases t with
              | negative => cases h
              | positive =>
                  obtain ⟨rfl, rfl⟩ := hparts rfl (Option.some.inj h)
                  exact .inl rfl

theorem eq_of_toBits {x y : Float} (h : x.toBits = y.toBits) : x = y := by
  obtain ⟨⟨bits, hx⟩⟩ := x
  obtain ⟨⟨bits', hy⟩⟩ := y
  obtain rfl : bits = bits' := h
  rfl

theorem toBits_eq (x : Float) :
    x.toBits = UInt64.ofBitVec (UnpackedFloat.pack .binary64 x.toModel.unpack) := by
  obtain ⟨⟨bits, hvalid⟩⟩ := x
  exact congrArg UInt64.ofBitVec (pack_unpack hvalid).symm

/-- Numbers that are equal are the same, or they are the two zeros. -/
theorem eq_or_zeros_of_beq {x y : Float} (h : (x == y) = true) :
    x = y ∨ (x = 0.0 ∧ y = -0.0) ∨ (x = -0.0 ∧ y = 0.0) := by
  have hzero : ∀ {z : Float} {s : Sign}, z.toModel.unpack = .zero s →
      z = match s with | .positive => 0.0 | .negative => -0.0 := by
    intro z s hz
    refine eq_of_toBits ?_
    rw [toBits_eq, hz]
    cases s <;> decide
  rcases eq_or_zeros_of_compare (eq_of_beq (h : (_ == _) = true)) with hxy | ⟨s, t, hx, hy⟩
  · refine .inl (eq_of_toBits ?_)
    rw [toBits_eq, toBits_eq, hxy]
  · rw [hzero hx, hzero hy]
    cases s <;> cases t <;> simp

/-- A word whose parts are a number stands for that number only. -/
theorem valid_of_unpack {b : BitVec Format.binary64.numBits}
    (h : UnpackedFloat.unpack .binary64 b ≠ .notANumber) : Format.binary64.Valid b := by
  refine ⟨fun hexponent hmantissa => absurd ?_ h⟩
  simp only [UnpackedFloat.unpack]
  rw [if_pos hexponent, if_neg hmantissa]

/-- The bits of a number that equals another one are the word it was made of. -/
theorem toBits_ofBits_of_beq {a b : UInt64} (h : (Float.ofBits a == Float.ofBits b) = true) :
    (Float.ofBits a).toBits = a ∧ (Float.ofBits b).toBits = b := by
  have hcompare : (Float.ofBits a).toModel.unpack.compare (Float.ofBits b).toModel.unpack =
      some .eq := eq_of_beq (h : (_ == _) = true)
  have hnan : ∀ {c : UInt64}, UnpackedFloat.unpack .binary64 c.toBitVec = .notANumber →
      (Float.ofBits c).toModel.unpack = .notANumber := by
    intro c hc
    change (Float.Model.pack (UnpackedFloat.unpack .binary64 c.toBitVec)).unpack = _
    rw [hc]
    rfl
  have hbits : ∀ {c : UInt64}, (Float.ofBits c).toModel.unpack ≠ .notANumber →
      (Float.ofBits c).toBits = c := fun hc =>
    congrArg UInt64.ofBitVec (pack_unpack (valid_of_unpack (mt hnan hc)))
  constructor
  · refine hbits fun ha => ?_
    rw [ha] at hcompare
    cases hcompare
  · refine hbits fun hb => ?_
    rw [hb] at hcompare
    revert hcompare
    cases (Float.ofBits a).toModel.unpack with
    | infinity s => cases s <;> exact nofun
    | zero s => exact nofun
    | finite s m e hm => cases s <;> exact nofun
    | notANumber => exact nofun

end Binary64

namespace Value

abbrev zero : Value := .float (Float.toBits 0.0)

abbrev negativeZero : Value := .float (Float.toBits (-0.0))

/-- The two zeros, which are equal as numbers and have different bits. -/
def Opposite (a b : Value) : Prop :=
  (a = zero ∧ b = negativeZero) ∨ (a = negativeZero ∧ b = zero)

instance (a b : Value) : Decidable (a.Opposite b) := inferInstanceAs (Decidable (_ ∨ _))

theorem bits_zero_ne : Float.toBits 0.0 ≠ Float.toBits (-0.0) := by decide

theorem not_opposite_self (a : Value) : ¬a.Opposite a := by
  rintro (⟨rfl, h⟩ | ⟨rfl, h⟩)
  · exact bits_zero_ne (Value.float.inj h)
  · exact bits_zero_ne (Value.float.inj h).symm

/-- Equal values are the same, or they are the two zeros. -/
theorem eq_or_opposite_of_same {a b : Value} (h : a.same b = true) : a = b ∨ a.Opposite b := by
  cases a <;> cases b <;> simp only [same, Bool.false_eq_true, beq_iff_eq] at h
  case null.null => exact .inl rfl
  case float.float x y =>
    obtain ⟨hx, hy⟩ := Binary64.toBits_ofBits_of_beq h
    rw [← hx, ← hy]
    rcases Binary64.eq_or_zeros_of_beq h with heq | ⟨hzero, hopposite⟩ | ⟨hopposite, hzero⟩
    · exact .inl (congrArg (fun z => Value.float z.toBits) heq)
    · exact .inr (.inl ⟨by rw [hzero], by rw [hopposite]⟩)
    · exact .inr (.inr ⟨by rw [hopposite], by rw [hzero]⟩)
  all_goals exact .inl (congrArg _ h)

end Value

end LiveIsolation
