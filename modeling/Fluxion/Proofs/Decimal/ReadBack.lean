import Fluxion.Decimal.Reading
import Fluxion.Proofs.Decimal.Text

/-!
# Finite values read back from their texts

The text of a finite `Float` is a sign and a numeral, and the `Float` nearest to the
numeral is the value again.  The numeral is so near because its digits lie in the interval
of the value, and neither end of the range is cut off before it is rounded.
-/

namespace Fluxion.Decimal

open Fluxion.Number Fluxion.Text

/-! ## The range -/

theorem two_zpow_maxExponent_lt :
    (2 : ℚ) ^ 53 * 2 ^ Binary64.maxExponent < 10 ^ (310 : Int) := by
  have hsize : 2 ^ 53 * 2 ^ 971 < 10 ^ 310 := by decide +kernel
  rw [Binary64.maxExponent]
  exact_mod_cast hsize

theorem lt_two_zpow_minExponent :
    (10 : ℚ) ^ (-330 : Int) < 1 / 2 * 2 ^ Binary64.minExponent := by
  have hsize : 2 * 2 ^ 1074 < 10 ^ 330 := by decide +kernel
  rw [Binary64.minExponent, zpow_neg, zpow_neg, one_div, ← mul_inv,
    inv_lt_inv₀ (by positivity) (by positivity)]
  exact_mod_cast hsize

section Nearest

variable {negative : Bool} {digits m : Nat} {exponent e : Int} {v : ℚ}

theorem digits_pos (hm : 0 < m) (hvalue : (digits : ℚ) * 10 ^ exponent = v * 2 ^ e)
    (hnear : IsNearest m v) : 0 < digits := by
  have hm' : (1 : ℚ) ≤ m := by exact_mod_cast hm
  have hv : 0 < v := by linarith [(abs_le.mp hnear.distance_le).1]
  have hpos : 0 < (digits : ℚ) * 10 ^ exponent := by
    rw [hvalue]
    positivity
  exact_mod_cast pos_of_mul_pos_left hpos (by positivity)

/-- A finite value is not so large that its numeral is cut off. -/
theorem magnitude_le (hdigits : 0 < digits) (hcanonical : Binary64.Canonical m e)
    (hvalue : (digits : ℚ) * 10 ^ exponent = v * 2 ^ e) (hnear : IsNearest m v) :
    (digitCount digits : Int) + exponent ≤ 310 := by
  obtain ⟨hpos, hlow, _⟩ := digitCount_spec hdigits
  have hlow' : (10 : ℚ) ^ ((digitCount digits : Int) - 1) ≤ digits := by
    have hexponent : (digitCount digits : Int) - 1 = ((digitCount digits - 1 : Nat) : Int) := by
      omega
    rw [hexponent, zpow_natCast]
    exact_mod_cast hlow
  have hm : (m : ℚ) + 1 ≤ 2 ^ 53 := by
    have hbound := hcanonical.significand
    rw [Binary64.leadingBit] at hbound
    exact_mod_cast hbound
  have hv : v ≤ 2 ^ 53 := by linarith [(abs_le.mp hnear.distance_le).2]
  have hlt : (10 : ℚ) ^ ((digitCount digits : Int) - 1 + exponent) < 10 ^ (310 : Int) := by
    calc
      (10 : ℚ) ^ ((digitCount digits : Int) - 1 + exponent)
        = 10 ^ ((digitCount digits : Int) - 1) * 10 ^ exponent := zpow_add₀ (by norm_num) _ _
      _ ≤ digits * 10 ^ exponent := by gcongr
      _ = v * 2 ^ e := hvalue
      _ ≤ 2 ^ 53 * 2 ^ Binary64.maxExponent := by
          gcongr
          · norm_num
          · exact hcanonical.le_maxExponent
      _ < 10 ^ (310 : Int) := two_zpow_maxExponent_lt
  have hexponent := (zpow_lt_zpow_iff_right₀ (by norm_num)).mp hlt
  omega

/-- A positive value is not so small that its numeral is cut off. -/
theorem le_magnitude (hdigits : 0 < digits) (hm : 0 < m) (hcanonical : Binary64.Canonical m e)
    (hvalue : (digits : ℚ) * 10 ^ exponent = v * 2 ^ e) (hnear : IsNearest m v) :
    -330 ≤ (digitCount digits : Int) + exponent := by
  obtain ⟨_, _, hhigh⟩ := digitCount_spec hdigits
  have hhigh' : (digits : ℚ) < 10 ^ (digitCount digits : Int) := by
    rw [zpow_natCast]
    exact_mod_cast hhigh
  have hm' : (1 : ℚ) ≤ m := by exact_mod_cast hm
  have hv : 1 / 2 ≤ v := by linarith [(abs_le.mp hnear.distance_le).1]
  have hlt : (10 : ℚ) ^ (-330 : Int) < 10 ^ ((digitCount digits : Int) + exponent) := by
    calc
      (10 : ℚ) ^ (-330 : Int) < 1 / 2 * 2 ^ Binary64.minExponent := lt_two_zpow_minExponent
      _ ≤ v * 2 ^ e := by
          gcongr
          · norm_num
          · exact hcanonical.minExponent_le
      _ = digits * 10 ^ exponent := hvalue.symm
      _ ≤ 10 ^ (digitCount digits : Int) * 10 ^ exponent := by gcongr
      _ = 10 ^ ((digitCount digits : Int) + exponent) := (zpow_add₀ (by norm_num) _ _).symm
  have hexponent := (zpow_lt_zpow_iff_right₀ (by norm_num)).mp hlt
  omega

/-- A decimal number near enough to a positive value is read as the value. -/
theorem nearestDecimal_eq (hm : 0 < m) (hcanonical : Binary64.Canonical m e)
    (hvalue : (digits : ℚ) * 10 ^ exponent = v * 2 ^ e)
    (hcontains : (Interval.around m e).Contains (4 * v)) :
    Numeral.nearestDecimal negative digits exponent =
      Binary64.ofCode negative (Binary64.code m e) := by
  obtain ⟨hnear, hlow⟩ := hcontains.isNearest hm
  have hdigits : 0 < digits := digits_pos hm hvalue hnear
  have hhigh := magnitude_le hdigits hcanonical hvalue hnear
  have hsmall := le_magnitude hdigits hm hcanonical hvalue hnear
  have hquotient : ((digits * (powerOfTen exponent).1 : Nat) : ℚ) / (powerOfTen exponent).2 =
      v * 2 ^ e := by
    rw [← hvalue, ← powerOfTen_div]
    push_cast
    rw [mul_div_assoc]
  have hnearest : Numeral.nearestDecimal negative digits exponent =
      Binary64.nearest negative (digits * (powerOfTen exponent).1) (powerOfTen exponent).2 := by
    simp only [Numeral.nearestDecimal]
    rw [if_neg (Nat.ne_of_gt hdigits), if_neg (by omega), if_neg (by omega)]
  rw [hnearest]
  exact Binary64.nearest_eq (Nat.mul_pos hdigits (powerOfTen_pos exponent).1)
    (powerOfTen_pos exponent).2 hcanonical hquotient hnear hlow

end Nearest

theorem Numeral.neg_nearestDecimal (digits : Nat) (exponent : Int) :
    -nearestDecimal true digits exponent = nearestDecimal false digits exponent := by
  simp only [nearestDecimal]
  split_ifs
  · exact Binary64.neg_ofCode 0
  · exact Binary64.neg_ofCode Binary64.infinityCode
  · exact Binary64.neg_ofCode 0
  · exact Binary64.neg_nearest _ _

/-- A numeral with a minus sign has the negated value. -/
theorem Numeral.value_eq_neg (x : Numeral) : x.value = -x.signedValue true :=
  (neg_nearestDecimal x.mantissa x.scale).symm

/-! ## Texts -/

/-- The shortest digits are written as a numeral that is read as the value they come from. -/
theorem shortest_text {negative : Bool} {m : Nat} {e : Int} (hm : 0 < m)
    (hcanonical : Binary64.Canonical m e) :
    ∃ x, IsFloatNumeral x ∧ (shortest m e).text = x.text ∧
      x.signedValue negative = Binary64.ofCode negative (Binary64.code m e) := by
  have hcontains := @shortest_contains m e hm hcanonical.significand
  have hunits : (shortest m e).value = (shortest m e).value / 2 ^ e * 2 ^ e :=
    (div_mul_cancel₀ _ (by positivity)).symm
  obtain ⟨x, hx, htext, hexact⟩ :=
    (shortest m e).writes_text (digits_pos hm hunits (hcontains.isNearest hm).1)
  exact ⟨x, hx, htext, nearestDecimal_eq hm hcanonical (hexact.trans hunits) hcontains⟩

theorem code_zero {e : Int} (hcanonical : Binary64.Canonical 0 e) : Binary64.code 0 e = 0 := by
  have hexponent : e = Binary64.minExponent := hcanonical.normal.resolve_left (by decide)
  rw [hexponent]
  rfl

theorem signedValue_zero {negative : Bool} {x : Numeral} (h : x.exact = 0) :
    x.signedValue negative = Binary64.ofCode negative 0 := by
  have hmantissa : x.mantissa = 0 := by
    rw [Numeral.exact, mul_eq_zero_iff_right (by positivity)] at h
    exact_mod_cast h
  rw [Numeral.signedValue, hmantissa]
  rfl

/-- The text of a finite value is a sign and a numeral that has, with this sign, the
value. -/
theorem floatChars_finite {c : Float} {negative : Bool} {m : Nat} {e : Int}
    (h : Binary64.ofFloat c = .finite negative m e) :
    ∃ x, IsFloatNumeral x ∧ floatChars c = signText negative ++ x.text ∧
      x.signedValue negative = c := by
  obtain ⟨hcanonical, hcode⟩ := Binary64.ofFloat_finite h
  rw [floatChars, h]
  cases m with
  | zero =>
      obtain ⟨x, hx, htext, hexact⟩ :=
        writes_point isAsciiDigit_of_mem_zero (by simp) isAsciiDigit_of_mem_zero
      have hdigits : Numeral.natOfDigits (['0'] ++ ['0']) = 0 := rfl
      rw [hdigits, Nat.cast_zero, zero_mul] at hexact
      refine ⟨x, hx, congrArg (signText negative ++ ·) htext, ?_⟩
      rw [← hcode, signedValue_zero hexact, code_zero hcanonical]
  | succ m =>
      obtain ⟨x, hx, htext, hvalue⟩ := @shortest_text negative (m + 1) e (Nat.succ_pos m) hcanonical
      exact ⟨x, hx, congrArg (signText negative ++ ·) htext, hvalue.trans hcode⟩

/-! ## Reading -/

def numeralChars : List Char :=
  "0123456789.eE+-".toList

theorem mem_numeralChars_of_isAsciiDigit {c : Char} (h : isAsciiDigit c = true) :
    c ∈ numeralChars := by
  have hrange : 48 ≤ c.toNat ∧ c.toNat ≤ 57 := by
    simpa [isAsciiDigit, Char.le_def, UInt32.le_iff_toNat_le] using h
  have hall : (List.range 58).all
      (fun n => n < 48 || numeralChars.contains (Char.ofNat n)) = true := by
    decide
  have hc := List.all_eq_true.mp hall c.toNat (List.mem_range.mpr (by omega))
  rw [Char.ofNat_toNat, Bool.or_eq_true, decide_eq_true_iff, List.contains_iff_mem] at hc
  exact hc.resolve_left (by omega)

/-- None of them is a blank or an underscore, and each is its own ASCII form. -/
theorem numeralChars_plain {c : Char} (h : c ∈ numeralChars) :
    isBlank c = false ∧ asciiDigits [c] = [c] ∧ c ≠ '_' := by
  have hall : numeralChars.all
      (fun c => !isBlank c && asciiDigits [c] == [c] && c != '_') = true := by
    decide
  simpa [and_assoc] using List.all_eq_true.mp hall c h

theorem mem_numeralChars_of_mem_text {x : Numeral} (hx : x.WellFormed) :
    ∀ c ∈ x.text, c ∈ numeralChars := by
  intro c hc
  rcases List.mem_append.mp hc with hc | hc
  · rcases List.mem_append.mp hc with hc | hc
    · exact mem_numeralChars_of_isAsciiDigit (hx.whole c hc)
    · cases hfraction : x.fraction with
      | none =>
          rw [hfraction] at hc
          exact absurd hc List.not_mem_nil
      | some digits =>
          rw [hfraction] at hc
          rcases List.mem_cons.mp hc with rfl | hc
          · decide
          · exact mem_numeralChars_of_isAsciiDigit (hx.fraction digits hfraction c hc)
  · cases hexponent : x.exponent with
    | none =>
        rw [hexponent] at hc
        exact absurd hc List.not_mem_nil
    | some e =>
        obtain ⟨hletter, hsign, hdigits, _⟩ := hx.exponent e hexponent
        rw [hexponent] at hc
        rcases List.mem_cons.mp hc with rfl | hc
        · rcases (by simpa [Numeral.isExponentLetter] using hletter :
            e.letter = 'e' ∨ e.letter = 'E') with hletter | hletter <;> rw [hletter] <;> decide
        · rcases List.mem_append.mp hc with hc | hc
          · rcases hsign c (Option.mem_toList.mp hc) with rfl | rfl <;> decide
          · exact mem_numeralChars_of_isAsciiDigit (hdigits c hc)

section Plain

variable {cs : List Char}

theorem stripChars_eq_self (h : ∀ c ∈ cs, isBlank c = false) : stripChars cs = cs := by
  have hkept : ∀ ds : List Char, (∀ c ∈ ds, isBlank c = false) → ds.dropWhile isBlank = ds := by
    intro ds hds
    cases ds with
    | nil => rfl
    | cons d ds => rw [List.dropWhile_cons_of_neg (by simp [hds d List.mem_cons_self])]
  rw [stripChars, hkept cs h, hkept cs.reverse (fun c hc => h c (List.mem_reverse.mp hc)),
    List.reverse_reverse]

theorem asciiDigits_eq_self (h : ∀ c ∈ cs, asciiDigits [c] = [c]) : asciiDigits cs = cs := by
  induction cs with
  | nil => rfl
  | cons c cs ih =>
      have hhead := h c List.mem_cons_self
      have htail := ih (fun d hd => h d (List.mem_cons_of_mem c hd))
      calc
        asciiDigits (c :: cs) = asciiDigits [c] ++ asciiDigits cs := rfl
        _ = c :: cs := by rw [hhead, htail, List.singleton_append]

theorem dropUnderscores?_eq_some (h : ∀ c ∈ cs, c ≠ '_') (afterDigit : Bool) :
    dropUnderscores? afterDigit cs = some cs := by
  induction cs generalizing afterDigit with
  | nil => rfl
  | cons c cs ih =>
      rw [dropUnderscores?, ih (fun d hd => h d (List.mem_cons_of_mem c hd))]
      · rfl
      · exact h c List.mem_cons_self

end Plain

/-- A numeral starts with a digit or with the point. -/
theorem Numeral.WellFormed.head {x : Numeral} (hx : x.WellFormed) :
    ∃ d ds, x.text = d :: ds ∧ (isAsciiDigit d = true ∨ d = '.') := by
  cases hwhole : x.whole with
  | cons d ds =>
      have hd : isAsciiDigit d = true := hx.whole d (by simp [hwhole])
      exact ⟨d, _, by rw [Numeral.text, hwhole]; rfl, Or.inl hd⟩
  | nil =>
      obtain ⟨digits, hfraction, -⟩ := hx.nonempty.resolve_left (not_not.mpr hwhole)
      refine ⟨'.', digits ++ Numeral.exponentChars x.exponent, ?_, Or.inr rfl⟩
      rw [Numeral.text, hwhole, Option.mem_def.mp hfraction]
      rfl

theorem Numeral.WellFormed.splitSign_text {x : Numeral} (hx : x.WellFormed) (negative : Bool) :
    splitSign (signText negative ++ x.text) = (negative, x.text) := by
  cases negative with
  | true => rfl
  | false =>
      obtain ⟨d, ds, htext, hd⟩ := hx.head
      simp only [signText, Bool.false_eq_true, if_false, List.nil_append, htext, splitSign.eq_def]
      split
      · next heq =>
        obtain rfl := (List.cons.inj heq).1
        exact absurd hd (by decide)
      · next heq =>
        obtain rfl := (List.cons.inj heq).1
        exact absurd hd (by decide)
      · rfl

/-- A numeral is no word. -/
theorem Numeral.WellFormed.ne_word {x : Numeral} (hx : x.WellFormed) {w : Char} {ws : List Char}
    (hw : isAsciiDigit w = false ∧ w ≠ '.') :
    String.ofList (x.text.map Char.toLower) ≠ String.ofList (w :: ws) := by
  obtain ⟨d, ds, htext, hd⟩ := hx.head
  have hlower : d.toLower = d := by
    have hall : numeralChars.all
        (fun c => !isAsciiDigit c && c != '.' || c.toLower == c) = true := by
      decide
    have hmem : d ∈ numeralChars :=
      mem_numeralChars_of_mem_text hx d (htext ▸ List.mem_cons_self)
    rcases hd with hdigit | rfl
    · simpa [hdigit] using List.all_eq_true.mp hall d hmem
    · rfl
  intro heq
  have hchars := String.ofList_injective heq
  rw [htext, List.map_cons, hlower] at hchars
  obtain rfl := (List.cons.inj hchars).1
  rcases hd with hdigit | hpoint
  · exact Bool.false_ne_true (hw.1.symm.trans hdigit)
  · exact hw.2 hpoint

/-- The text of a numeral is read as that numeral. -/
theorem ofChars?_text {x : Numeral} (hx : x.WellFormed) : Numeral.ofChars? x.text = some x := by
  have hscan : Numeral.scan (x.text ++ []) = some (x, []) := Numeral.scan_append hx trivial
  rw [List.append_nil] at hscan
  simp [Numeral.ofChars?, hscan]

/-- A numeral with a sign is read as what it denotes, though many other texts are numbers as
well. -/
theorem readFloatChars?_text {x : Numeral} (hx : x.WellFormed) (negative : Bool) :
    readFloatChars? (signText negative ++ x.text) = some (x.signedValue negative) := by
  have hchars : ∀ c ∈ signText negative ++ x.text, c ∈ numeralChars := by
    intro c hc
    rcases List.mem_append.mp hc with hc | hc
    · cases negative with
      | false => exact absurd hc List.not_mem_nil
      | true =>
          obtain rfl := List.mem_singleton.mp hc
          decide
    · exact mem_numeralChars_of_mem_text hx c hc
  have hstrip : stripChars (signText negative ++ x.text) = signText negative ++ x.text :=
    stripChars_eq_self fun c hc => (numeralChars_plain (hchars c hc)).1
  have hascii : asciiDigits (signText negative ++ x.text) = signText negative ++ x.text :=
    asciiDigits_eq_self fun c hc => (numeralChars_plain (hchars c hc)).2.1
  have hunderscores : dropUnderscores? false x.text = some x.text :=
    dropUnderscores?_eq_some
      (fun c hc => (numeralChars_plain (mem_numeralChars_of_mem_text hx c hc)).2.2) false
  rw [readFloatChars?, hstrip, hascii, hx.splitSign_text]
  dsimp only
  have hinf : String.ofList (x.text.map Char.toLower) ≠ "inf" := hx.ne_word (by decide)
  have hinfinity : String.ofList (x.text.map Char.toLower) ≠ "infinity" := hx.ne_word (by decide)
  have hnan : String.ofList (x.text.map Char.toLower) ≠ "nan" := hx.ne_word (by decide)
  rw [if_neg (by simp [hinf, hinfinity]), if_neg (by simp [hnan]), hunderscores]
  dsimp only
  rw [ofChars?_text hx, Option.map_some]

/-- The exact text of a finite value reads back as the value. -/
theorem readFloat?_floatText {c : Float} {negative : Bool} {m : Nat} {e : Int}
    (h : Binary64.ofFloat c = .finite negative m e) : readFloat? (floatText c) = some c := by
  obtain ⟨x, hx, htext, hvalue⟩ := floatChars_finite h
  rw [readFloat?, floatText, String.toList_ofList, htext, readFloatChars?_text hx.1, hvalue]

/-- Reading the text of a numeral gives its value: there is nothing to strip and no digit of
another script in it. -/
theorem readFloat?_text {x : Numeral} (hx : x.WellFormed) :
    readFloat? (String.ofList x.text) = some x.value := by
  rw [readFloat?, String.toList_ofList]
  exact readFloatChars?_text hx false

/-- No two finite values have one text. -/
theorem floatChars_inj {c d : Float} {negative negative' : Bool} {m m' : Nat} {e e' : Int}
    (hc : Binary64.ofFloat c = .finite negative m e)
    (hd : Binary64.ofFloat d = .finite negative' m' e') (h : floatChars c = floatChars d) :
    c = d := by
  have htext : floatText c = floatText d := congrArg String.ofList h
  exact Option.some.inj <| calc
    some c = readFloat? (floatText c) := (readFloat?_floatText hc).symm
    _ = readFloat? (floatText d) := by rw [htext]
    _ = some d := readFloat?_floatText hd

/-- The value of a numeral has no sign. -/
theorem Numeral.unsigned_value (x : Numeral) : Binary64.Unsigned x.value := by
  simp only [Numeral.value, Numeral.signedValue, nearestDecimal]
  split_ifs
  · exact Binary64.unsigned_ofCode 0
  · exact Binary64.unsigned_ofCode Binary64.infinityCode
  · exact Binary64.unsigned_ofCode 0
  · exact Binary64.unsigned_nearest _ _

end Fluxion.Decimal
