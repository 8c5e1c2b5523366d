import Fluxion.Proofs.Number.Unpacked

/-!
# Signs of `Float`s

Arithmetic unpacks its operands and packs the result, and turning the sign over commutes with
both (`unpack_neg`, `pack_neg`).  So the laws of signs are those of unpacked floats, where a
rounded result takes its size from the operands' sizes and its sign from their signs: a sum
and a product do not depend on the order of operands, a difference is a sum, and the sign of a
factor is that of the product.
-/

open Float.Model

namespace Fluxion.Number

variable {spec : Format} {u v : UnpackedFloat} {s t : UnpackedFloat.Sign}

/-! ## Signs -/

theorem sign_mul_comm (s t : UnpackedFloat.Sign) : s * t = t * s := by
  cases s <;> cases t <;> rfl

theorem sign_mul_neg (s t : UnpackedFloat.Sign) : s * -t = -(s * t) := by
  cases s <;> cases t <;> rfl

theorem sign_beq_comm (s t : UnpackedFloat.Sign) : (s == t) = (t == s) := by
  cases s <;> cases t <;> rfl

theorem eq_of_sign_beq (h : (s == t) = true) : s = t := by
  cases s <;> cases t <;> first | rfl | cases h

theorem isMinus_neg (s : UnpackedFloat.Sign) : isMinus (-s) = !isMinus s := by
  cases s <;> rfl

theorem sign_neg_apply (s : UnpackedFloat.Sign) (n : Int) : (-s).apply n = -s.apply n := by
  cases s
  · exact (Int.neg_neg n).symm
  · rfl

/-! ## Unpacked floats -/

theorem ite_sign_comm (f : UnpackedFloat.Sign → UnpackedFloat) (other : UnpackedFloat)
    (s t : UnpackedFloat.Sign) :
    (if s == t then f s else other) = if t == s then f t else other := by
  rw [sign_beq_comm]
  split_ifs with h
  · rw [eq_of_sign_beq h]
  · rfl

theorem unpacked_add_comm (u v : UnpackedFloat) : u.add spec v = v.add spec u := by
  cases u with
  | notANumber => cases v <;> rfl
  | infinity s => cases v with
    | infinity t => exact ite_sign_comm .infinity .notANumber s t
    | notANumber | zero t | finite t n f hn => rfl
  | zero s => cases v with
    | zero t => exact ite_sign_comm .zero (.zero .positive) s t
    | notANumber | infinity t | finite t n f hn => rfl
  | finite s m e hm => cases v with
    | finite t n f hn =>
        simp only [UnpackedFloat.add]
        rw [min_comm e f, Int.add_comm]
    | notANumber | infinity t | zero t => rfl

theorem unpacked_mul_comm (u v : UnpackedFloat) : u.mul spec v = v.mul spec u := by
  cases u <;> cases v <;>
    simp only [UnpackedFloat.mul, sign_mul_comm, Nat.mul_comm, Int.add_comm]

theorem unpacked_sub_eq_add_neg (u v : UnpackedFloat) : u.sub spec v = u.add spec v.neg := by
  cases u <;> cases v <;>
    simp only [UnpackedFloat.sub, UnpackedFloat.add, UnpackedFloat.neg, sign_neg_apply,
      Int.sub_eq_add_neg]

/-- Rounding passes the sign on. -/
theorem roundWithAccuracy_neg (s : UnpackedFloat.Sign) (m : ℕ) (e : ℤ)
    (accuracy : UnpackedFloat.Accuracy) :
    UnpackedFloat.roundWithAccuracy spec (-s) m e accuracy =
      (UnpackedFloat.roundWithAccuracy spec s m e accuracy).neg := by
  simp only [UnpackedFloat.roundWithAccuracy]
  split_ifs <;> rfl

/-- The sign of a factor is that of the product, before and after rounding. -/
theorem unpacked_mul_neg (u v : UnpackedFloat) : u.mul spec v.neg = (u.mul spec v).neg := by
  cases u <;> cases v <;>
    simp only [UnpackedFloat.mul, UnpackedFloat.neg, sign_mul_neg, roundWithAccuracy_neg]

theorem unpackedValue_neg (u : UnpackedFloat) : unpackedValue u.neg = (unpackedValue u).neg := by
  cases u with
  | notANumber => rfl
  | infinity s => rw [UnpackedFloat.neg, unpackedValue, unpackedValue, isMinus_neg, Value.neg]
  | zero s => rw [UnpackedFloat.neg, unpackedValue, unpackedValue, Value.neg, neg_zero]
  | finite s m e hm =>
      rw [UnpackedFloat.neg, unpackedValue, unpackedValue, isMinus_neg, signed_neg, Value.neg]
      push_cast
      rw [neg_mul]

/-! ## Unpacking and packing -/

/-- Changing the sign of a `Float` changes the sign of the unpacked float. -/
theorem unpack_neg (x : Float) : (-x).toModel.unpack = x.toModel.unpack.neg := by
  obtain ⟨s, exponent, fraction, hbits⟩ := exists_fields x.toBits
  have hneg : (-x).toModel.unpack = UnpackedFloat.unpack Format.binary64
      (UnpackedFloat.pack Format.binary64 x.toModel.unpack.neg) := rfl
  rw [hneg, unpack_of_fields hbits, neg_unpack, unpack_pack_unpack]

/-- The fields of what is not a number are the same for both signs, and otherwise only the
first one differs. -/
theorem unpacked_pack_neg (u : UnpackedFloat) :
    UnpackedFloat.pack Format.binary64
        (UnpackedFloat.unpack Format.binary64 (UnpackedFloat.pack Format.binary64 u)).neg =
      UnpackedFloat.pack Format.binary64 u.neg := by
  have hfields : ∀ (s : UnpackedFloat.Sign) (e : BitVec 11) (m : BitVec 52),
      e ≠ -1#11 ∨ m = 0#52 → UnpackedFloat.pack Format.binary64
        (UnpackedFloat.unpack Format.binary64 (fields s e m)).neg = fields (-s) e m := by
    intro s e m h
    rw [neg_unpack, pack_unpack _ _ _ h]
  cases u with
  | notANumber => rfl
  | infinity s => exact hfields s (-1#11) 0#52 (.inr rfl)
  | zero s => exact hfields s 0#11 0#52 (.inr rfl)
  | finite s m e hm =>
      rw [UnpackedFloat.neg, pack_finite, pack_finite]
      split_ifs with hlarge hlong
      · exact hfields s (-1#11) 0#52 (.inr rfl)
      · -- The biased exponent stays below the field that infinities have.
        refine hfields s _ _ (.inl fun htop => hlarge ?_)
        have hfield := congrArg BitVec.toNat htop
        rw [BitVec.toNat_ofNat] at hfield
        have hmod : (e + 1075).toNat % 2 ^ 11 = 2047 := hfield
        omega
      · exact hfields s 0#11 _ (.inl (by decide))

theorem pack_neg (u : UnpackedFloat) :
    Float.ofModel (Float.Model.pack u.neg) = -Float.ofModel (Float.Model.pack u) := by
  have hneg : -Float.ofModel (Float.Model.pack u) = Float.ofModel (Float.Model.pack
      (Float.Model.pack u).unpack.neg) := rfl
  have hbits := unpacked_pack_neg u
  rw [hneg]
  apply congrArg Float.ofModel
  rw [Float.Model.pack, Float.Model.pack, Float.Model.mk.injEq]
  exact congrArg UInt64.ofBitVec hbits.symm

/-! ## Floats -/

section Floats

variable (x y : Float)

theorem float_add_comm : x + y = y + x :=
  congrArg (fun u => Float.ofModel (Float.Model.pack u)) (unpacked_add_comm _ _)

theorem float_mul_comm : x * y = y * x :=
  congrArg (fun u => Float.ofModel (Float.Model.pack u)) (unpacked_mul_comm _ _)

/-- A difference is the sum with the opposite, bit by bit. -/
theorem float_sub_eq_add_neg : x - y = x + -y := by
  have hsub : x - y = Float.ofModel (Float.Model.pack
      (UnpackedFloat.sub Format.binary64 x.toModel.unpack y.toModel.unpack)) := rfl
  have hadd : x + -y = Float.ofModel (Float.Model.pack
      (UnpackedFloat.add Format.binary64 x.toModel.unpack (-y).toModel.unpack)) := rfl
  rw [hsub, hadd, unpack_neg, unpacked_sub_eq_add_neg]

/-- The sign of a factor is that of the product, bit by bit. -/
theorem float_mul_neg : x * -y = -(x * y) := by
  have hmul : ∀ z, x * z = Float.ofModel (Float.Model.pack
      (UnpackedFloat.mul Format.binary64 x.toModel.unpack z.toModel.unpack)) := fun _ => rfl
  rw [hmul, hmul, unpack_neg, unpacked_mul_neg, pack_neg]

theorem float_abs_neg : (-x).abs = x.abs := by
  have habs : ∀ z : Float, z.abs = Float.ofModel (Float.Model.pack z.toModel.unpack.abs) :=
    fun _ => rfl
  rw [habs, habs, unpack_neg]
  cases x.toModel.unpack <;> rfl

theorem isFinite_neg : (-x).isFinite = x.isFinite := by
  have hfinite : ∀ z : Float, z.isFinite = z.toModel.unpack.isFinite := fun _ => rfl
  rw [hfinite, hfinite, unpack_neg]
  cases x.toModel.unpack <;> rfl

theorem floatValue_neg : floatValue (-x) = (floatValue x).neg := by
  rw [← unpackedValue_unpack, unpack_neg, unpackedValue_neg, unpackedValue_unpack]

end Floats

end Fluxion.Number
