import Lookml.Proofs.Number.Decimal

/-!
The text of a finite number is a decimal numeral, and reads back as the number. Only the
negative zero, which is written without its sign, comes back as the other zero.
-/

namespace Lookml

namespace Number

def IsFinite (value : Number) : Prop := ∃ negative rank, value = .finite negative rank

/-- The number that the text of a number stands for: the zeros are written alike. -/
def readBack : Number → Number
  | .finite negative rank => .finite (negative && rank.val != 0) rank
  | value => value

/-! Rounding a magnitude that is one of the finite ones leaves it as it is. -/

theorem roundHalfEven_mul (whole : Nat) {den : Nat} (h : 0 < den) :
    roundHalfEven (whole * den) den = whole := by
  have hmod : whole * den % den = 0 := Nat.mul_mod_left whole den
  have hdiv : whole * den / den = whole := Nat.mul_div_cancel whole h
  simp only [roundHalfEven, hmod, hdiv, Nat.mul_zero, h, if_true]

theorem units_eq_zero_iff (rank : Nat) : units rank = 0 ↔ rank = 0 := by
  unfold units
  have hpos : ∀ e : Nat, 0 < 2 ^ e := fun e => Nat.two_pow_pos e
  constructor
  · intro h
    simp only at h
    split at h
    · exact h
    · have hfactor := Nat.mul_eq_zero.mp h
      have := hpos (rank / 2 ^ 52 - 1)
      omega
  · rintro rfl
    rfl

/-- Below the first binade that is not subnormal the rank counts the units. -/
private theorem nearestRank_subnormal {rank den : Nat} (hrank : rank < 2 ^ 52) (hden : 0 < den) :
    nearestRank (units rank * den) den = rank := by
  have hunits : units rank = rank := by
    unfold units
    exact if_pos (Nat.div_eq_of_lt hrank)
  have hlog : rank.log2 + 1 - 53 = 0 := by
    by_cases hzero : rank = 0
    · subst hzero
      rfl
    · have := (Nat.log2_lt hzero).mpr hrank
      omega
  rw [hunits]
  simp only [nearestRank, Nat.mul_div_cancel rank hden, hlog, Nat.zero_mul, Nat.pow_zero,
    Nat.mul_one, Nat.zero_add]
  exact roundHalfEven_mul rank hden

private theorem log2_significand {significand : Nat} (hlow : 2 ^ 52 ≤ significand)
    (hhigh : significand < 2 ^ 53) (shift : Nat) :
    (significand * 2 ^ shift).log2 = 52 + shift := by
  have hpos := Nat.two_pow_pos shift
  have hne : significand * 2 ^ shift ≠ 0 := by
    have : 0 < significand * 2 ^ shift := Nat.mul_pos (by omega) hpos
    omega
  rw [Nat.log2_eq_iff hne]
  constructor
  · rw [Nat.pow_add]
    exact Nat.mul_le_mul_right _ hlow
  · rw [show 52 + shift + 1 = 53 + shift by omega, Nat.pow_add]
    exact Nat.mul_lt_mul_of_pos_right hhigh hpos

private theorem nearestRank_normal {rank den : Nat} (hrank : 2 ^ 52 ≤ rank) (hden : 0 < den) :
    nearestRank (units rank * den) den = rank := by
  have hbinade : rank / 2 ^ 52 ≠ 0 := by omega
  have hunits : units rank = (2 ^ 52 + rank % 2 ^ 52) * 2 ^ (rank / 2 ^ 52 - 1) := by
    simp only [units, hbinade, if_false]
  have hlow : 2 ^ 52 ≤ 2 ^ 52 + rank % 2 ^ 52 := Nat.le_add_right _ _
  have hhigh : 2 ^ 52 + rank % 2 ^ 52 < 2 ^ 53 := by omega
  have hshift : (units rank).log2 + 1 - 53 = rank / 2 ^ 52 - 1 := by
    rw [hunits, log2_significand hlow hhigh]
    omega
  have hscaled : units rank * den =
      (2 ^ 52 + rank % 2 ^ 52) * (den * 2 ^ (rank / 2 ^ 52 - 1)) := by
    rw [hunits, Nat.mul_assoc, Nat.mul_comm (2 ^ (rank / 2 ^ 52 - 1)) den]
  simp only [nearestRank, Nat.mul_div_cancel (units rank) hden, hshift]
  rw [hscaled, roundHalfEven_mul _ (Nat.mul_pos hden (Nat.two_pow_pos _))]
  omega

theorem nearestRank_units (rank : Nat) {den : Nat} (hden : 0 < den) :
    nearestRank (units rank * den) den = rank := by
  by_cases hrank : rank < 2 ^ 52
  · exact nearestRank_subnormal hrank hden
  · exact nearestRank_normal (by omega) hden

end Number

namespace Numeral

private theorem two_pow_le_ten_pow (n m : Nat) (h : n ≤ 3 * m) : 2 ^ n ≤ 10 ^ m :=
  calc 2 ^ n ≤ 2 ^ (3 * m) := Nat.pow_le_pow_right (by decide) h
    _ = (2 ^ 3) ^ m := Nat.pow_mul ..
    _ ≤ 10 ^ m := Nat.pow_le_pow_left (by decide) _

/-- A coefficient that stands for no less than the smallest magnitude is not settled as
zero. -/
private theorem places_le {coefficient places unit margin : Nat} (hunit : unit ≤ 10 ^ margin)
    (h : 10 ^ places ≤ coefficient * unit) : places ≤ coefficient.log2 + margin := by
  refine Nat.le_of_not_lt fun hlt => ?_
  have hcoefficient : coefficient < 10 ^ (coefficient.log2 + 1) :=
    Nat.lt_of_lt_of_le Nat.lt_log2_self (Nat.pow_le_pow_left (by decide) _)
  have hproduct : coefficient * unit < 10 ^ (coefficient.log2 + 1) * 10 ^ margin :=
    Nat.mul_lt_mul_of_lt_of_le hcoefficient hunit (Nat.pow_pos (by decide))
  have hlower : 10 ^ (coefficient.log2 + 1 + margin) ≤ 10 ^ places :=
    Nat.pow_le_pow_right (by decide) (by omega)
  rw [Nat.pow_add] at hlower
  exact absurd (Nat.le_trans hlower h) (Nat.not_le.mpr hproduct)

private theorem units_eq_zero_of_coefficient {coefficient unit rank places : Nat}
    (h : coefficient * unit = Number.units rank * 10 ^ places) (hzero : coefficient = 0) :
    rank = 0 := by
  rw [hzero, Nat.zero_mul] at h
  rcases Nat.mul_eq_zero.mp h.symm with hunits | hpower
  · exact (Number.units_eq_zero_iff rank).mp hunits
  · exact absurd hpower (Nat.ne_of_gt (Nat.pow_pos (by decide)))

private theorem ten_pow_le_of_coefficient {coefficient unit rank places : Nat}
    (h : coefficient * unit = Number.units rank * 10 ^ places) (hunit : 0 < unit)
    (hne : coefficient ≠ 0) : 10 ^ places ≤ coefficient * unit := by
  rw [h]
  apply Nat.le_mul_of_pos_left
  refine Nat.pos_of_ne_zero fun hzero => ?_
  rw [hzero, Nat.zero_mul] at h
  rcases Nat.mul_eq_zero.mp h with hcoefficient | hnone
  · exact hne hcoefficient
  · omega

/-- A decimal numeral for a magnitude is read as the number of that magnitude. -/
theorem number_of_units {numeral : Numeral} (hdecimal : numeral.IsDecimal)
    {rank : Fin Number.rankCount}
    (h : numeral.coefficient * 2 ^ 1074 = Number.units rank * 10 ^ numeral.fraction.length) :
    numeral.number = .finite numeral.negative rank := by
  have hscale : numeral.scale = -(numeral.fraction.length : Int) := by
    simp [scale, hdecimal.exponent_none]
  rw [number, hscale, scaled]
  split
  · rename_i hzero
    rw [← units_eq_zero_of_coefficient h hzero, Number.ofRank_val]
  · rename_i hne
    have hbound : numeral.fraction.length ≤ numeral.coefficient.log2 + 400 :=
      places_le (two_pow_le_ten_pow 1074 400 (by decide))
        (ten_pow_le_of_coefficient h (Nat.two_pow_pos 1074) hne)
    rw [if_neg (by omega), if_neg (by omega)]
    have hup : (-(numeral.fraction.length : Int)).toNat = 0 := by omega
    have hdown : (- -(numeral.fraction.length : Int)).toNat = numeral.fraction.length := by omega
    rw [hup, hdown, Nat.pow_zero, Nat.mul_one, Number.ofRatio, h,
      Number.nearestRank_units _ (Nat.pow_pos (by decide)), Number.ofRank_val]

theorem scaled_signed {coefficient : Nat} {scale : Int} {rank : Fin Number.rankCount}
    (h : scaled false coefficient scale = .finite false rank) (negative : Bool) :
    scaled negative coefficient scale = .finite negative rank := by
  have hofRank : ∀ n, Number.ofRank false n = .finite false rank →
      Number.ofRank negative n = .finite negative rank := by
    intro n hn
    unfold Number.ofRank at hn ⊢
    split at hn
    · rename_i hlt
      obtain ⟨-, rfl⟩ := Number.finite.inj hn
      rw [dif_pos hlt]
    · cases hn
  unfold scaled at h ⊢
  split at h
  · rw [if_pos ‹_›]
    exact hofRank _ h
  · rw [if_neg ‹_›]
    split at h
    · cases h
    · rw [if_neg ‹_›]
      split at h
      · rw [if_pos ‹_›]
        exact hofRank _ h
      · rw [if_neg ‹_›]
        exact hofRank _ h

theorem number_signed {numeral : Numeral} {rank : Fin Number.rankCount}
    (h : numeral.number = .finite false rank) (hnegative : numeral.negative = false)
    (negative : Bool) : number { numeral with negative } = .finite negative rank := by
  rw [number, hnegative] at h
  exact scaled_signed h negative

end Numeral

namespace Number

/-! Positional notation is decimal. -/

private theorem exists_eq_append_replicate {α : Type} [BEq α] [LawfulBEq α] (a : α)
    (xs : List α) :
    ∃ count, xs = (xs.reverse.dropWhile (· == a)).reverse ++ List.replicate count a := by
  refine ⟨(xs.reverse.takeWhile (· == a)).length, ?_⟩
  have hreplicate : xs.reverse.takeWhile (· == a) =
      List.replicate (xs.reverse.takeWhile (· == a)).length a := by
    rw [List.eq_replicate_iff]
    refine ⟨rfl, fun b hb => ?_⟩
    have := List.all_takeWhile (p := (· == a)) (l := xs.reverse)
    exact eq_of_beq (List.all_eq_true.mp this b hb)
  rw [← List.reverse_replicate, ← hreplicate, ← List.reverse_append,
    List.takeWhile_append_dropWhile, List.reverse_reverse]

section Padded
variable (n places : Nat)

private theorem isDigit_of_mem_padded {c : Char}
    (h : c ∈ (Nat.toDigits 10 n).leftpad places '0') : c.isDigit = true := by
  rw [List.leftpad, List.mem_append] at h
  rcases h with hzero | hdigit
  · rw [List.eq_of_mem_replicate hzero]
    decide
  · exact Nat.isDigit_of_mem_toDigits (by decide) (by decide) hdigit

private theorem length_padded (hplaces : places ≠ 0) (h : n < 10 ^ places) :
    ((Nat.toDigits 10 n).leftpad places '0').length = places := by
  have hlength := (Nat.length_toDigits_le_iff (by decide) (Nat.pos_of_ne_zero hplaces)).mpr h
  rw [List.length_leftpad]
  omega

private theorem digitsValue_padded :
    digitsValue ((Nat.toDigits 10 n).leftpad places '0') = n := by
  rw [List.leftpad, digitsValue_append, digitsValue_replicate_zero, digitsValue_toDigits,
    Nat.mul_zero, Nat.zero_add]

end Padded

/-- The digits behind the point, and how many zeros were left out after them. -/
private theorem exists_fraction (value places : Nat) :
    ∃ fraction zeros, positional value places =
        Nat.toDigits 10 (value / 10 ^ places) ++
          (if fraction.isEmpty then [] else '.' :: fraction) ∧
      (∀ c ∈ fraction, c.isDigit = true) ∧ fraction.length + zeros = places ∧
      digitsValue fraction * 10 ^ zeros = value % 10 ^ places := by
  by_cases hplaces : places = 0
  · subst hplaces
    refine ⟨[], 0, by simp [positional], by simp, rfl, ?_⟩
    simp [digitsValue, Nat.mod_one]
  · have hlt : value % 10 ^ places < 10 ^ places := Nat.mod_lt _ (Nat.pow_pos (by decide))
    obtain ⟨padded, hpadded⟩ : ∃ padded,
        padded = (Nat.toDigits 10 (value % 10 ^ places)).leftpad places '0' := ⟨_, rfl⟩
    have hdigits : ∀ c ∈ padded, c.isDigit = true := by
      rw [hpadded]
      exact fun c hc => isDigit_of_mem_padded _ places hc
    have hlength : padded.length = places := by rw [hpadded, length_padded _ places hplaces hlt]
    have hvalue : digitsValue padded = value % 10 ^ places := by rw [hpadded, digitsValue_padded]
    obtain ⟨zeros, hzeros⟩ := exists_eq_append_replicate '0' padded
    refine ⟨(padded.reverse.dropWhile (· == '0')).reverse, zeros, ?_, ?_, ?_, ?_⟩
    · simp [positional, hplaces, hpadded]
    · intro c hc
      apply hdigits
      rw [hzeros]
      exact List.mem_append_left _ hc
    · rw [← hlength]
      conv => rhs; rw [hzeros]
      simp
    · rw [← hvalue]
      conv => rhs; rw [hzeros]
      rw [digitsValue_append, digitsValue_replicate_zero, List.length_replicate, Nat.add_zero,
        Nat.mul_comm]

theorem exists_positional (value places : Nat) :
    ∃ numeral : Numeral, numeral.IsDecimal ∧ numeral.negative = false ∧
      positional value places = numeral.text ∧ numeral.fraction.length ≤ places ∧
      numeral.coefficient * 10 ^ (places - numeral.fraction.length) = value := by
  obtain ⟨fraction, zeros, htext, hdigits, hlength, hvalue⟩ := exists_fraction value places
  refine ⟨⟨false, Nat.toDigits 10 (value / 10 ^ places), fraction, none⟩,
    ⟨Nat.toDigits_ne_nil, ?_, hdigits, rfl⟩, rfl, ?_, by simp only; omega, ?_⟩
  · exact fun c hc => Nat.isDigit_of_mem_toDigits (by decide) (by decide) hc
  · rw [htext]
    simp [Numeral.text]
  · have hzeros : places - fraction.length = zeros := by omega
    simp only [Numeral.coefficient, hzeros]
    rw [digitsValue_append, digitsValue_toDigits, Nat.add_mul, hvalue, Nat.mul_right_comm,
      ← Nat.pow_add, hlength]
    exact Nat.div_add_mod value (10 ^ places)

private theorem coefficient_of_exact (places : Nat) {coefficient units count : Nat}
    (hcount : count ≤ places) (h : coefficient * 10 ^ (places - count) = units * 5 ^ places) :
    coefficient * 2 ^ places = units * 10 ^ count := by
  have hpos : 0 < 10 ^ (places - count) := Nat.pow_pos (by decide)
  apply Nat.eq_of_mul_eq_mul_right hpos
  calc coefficient * 2 ^ places * 10 ^ (places - count)
      = units * (5 ^ places * 2 ^ places) := by
        rw [Nat.mul_right_comm, h, Nat.mul_assoc]
    _ = units * 10 ^ places := by rw [← Nat.mul_pow]
    _ = units * 10 ^ count * 10 ^ (places - count) := by
        rw [Nat.mul_assoc, ← Nat.pow_add, Nat.add_sub_cancel' hcount]

private theorem positional_of_mem_neighbours {rank count : Nat} {text : List Char}
    (h : text ∈ neighbours rank count) : ∃ value places, text = positional value places := by
  simp only [neighbours] at h
  split at h
  all_goals
    simp only [List.mem_cons, List.not_mem_nil, or_false] at h
    rcases h with rfl | rfl <;> exact ⟨_, _, rfl⟩

/-- The exact text of a magnitude reads back: its coefficient is the magnitude in tenths
of tenths. -/
private theorem exists_exactText (rank : Fin rankCount) :
    ∃ numeral : Numeral, numeral.IsDecimal ∧ numeral.negative = false ∧
      exactText rank = numeral.text ∧ numeral.number = .finite false rank := by
  obtain ⟨numeral, hdecimal, hnegative, htext, hplaces, hvalue⟩ :=
    exists_positional (units rank * 5 ^ 1074) 1074
  refine ⟨numeral, hdecimal, hnegative, htext, ?_⟩
  rw [← hnegative]
  apply Numeral.number_of_units hdecimal
  exact coefficient_of_exact 1074 hplaces hvalue

/-- The fewest digits are tried out before they are taken, and all digits read back. -/
theorem exists_shortest (rank : Fin rankCount) :
    ∃ numeral : Numeral, numeral.IsDecimal ∧ numeral.negative = false ∧
      shortest rank = numeral.text ∧ numeral.number = .finite false rank := by
  unfold shortest
  cases hfound : (List.range 17).findSome? fun count =>
      (neighbours rank (count + 1)).find? (readsBack rank) with
  | none =>
      rw [Option.getD_none]
      exact exists_exactText rank
  | some text =>
      rw [Option.getD_some]
      obtain ⟨count, -, hfind⟩ := List.exists_of_findSome?_eq_some hfound
      have hreads := List.find?_some hfind
      have hmem := List.mem_of_find?_eq_some hfind
      obtain ⟨value, places, rfl⟩ := positional_of_mem_neighbours hmem
      obtain ⟨numeral, hdecimal, hnegative, htext, -⟩ := exists_positional value places
      refine ⟨numeral, hdecimal, hnegative, htext, ?_⟩
      rw [readsBack, htext, Numeral.ofText_text hdecimal.isLiteral] at hreads
      exact eq_of_beq hreads

private theorem units_of_smallWhole? {rank whole : Nat} (h : smallWhole? rank = some whole) :
    whole * 2 ^ 1074 = units rank := by
  unfold smallWhole? at h
  split at h
  · rename_i hwhole
    obtain rfl := Option.some.inj h
    exact Nat.div_mul_cancel (Nat.dvd_of_mod_eq_zero hwhole.1)
  · cases h

/-- A whole number is written with its digits alone. -/
private theorem number_of_smallWhole? {rank : Fin rankCount} {whole : Nat}
    (h : smallWhole? rank = some whole) (negative : Bool) :
    Numeral.number ⟨negative, Nat.toDigits 10 whole, [], none⟩ = .finite negative rank := by
  have hdecimal : Numeral.IsDecimal ⟨negative, Nat.toDigits 10 whole, [], none⟩ :=
    ⟨Nat.toDigits_ne_nil, fun c hc => Nat.isDigit_of_mem_toDigits (by decide) (by decide) hc,
      by simp, rfl⟩
  apply Numeral.number_of_units hdecimal
  simp only [Numeral.coefficient, List.append_nil, digitsValue_toDigits, List.length_nil,
    Nat.pow_zero, Nat.mul_one]
  exact units_of_smallWhole? h

private theorem rank_eq_zero {rank whole : Nat} (h : smallWhole? rank = some whole)
    (hzero : whole = 0) : rank = 0 := by
  rw [← units_eq_zero_iff, ← units_of_smallWhole? h]
  exact Nat.mul_eq_zero.mpr (.inl hzero)

private theorem smallWhole?_zero {rank : Nat} : smallWhole? rank = some 0 ↔ rank = 0 := by
  constructor
  · exact fun h => rank_eq_zero h rfl
  · rintro rfl
    have hunit := Nat.two_pow_pos 1074
    unfold smallWhole?
    generalize 2 ^ 1074 = unit at hunit ⊢
    rw [units_zero, Nat.zero_mod, Nat.zero_div, if_pos ⟨rfl, Nat.mul_pos (by decide) hunit⟩]

theorem readBack_of_ne_zero {rank : Fin rankCount} (h : rank.val ≠ 0) (negative : Bool) :
    readBack (.finite negative rank) = .finite negative rank := by
  simp [readBack, h]

private theorem text_signed (numeral : Numeral) (hnegative : numeral.negative = false)
    (negative : Bool) : signed negative numeral.text = Numeral.text { numeral with negative } := by
  cases negative <;> simp [signed, Numeral.text, hnegative]

/-- A finite number is written as a decimal numeral for it. -/
theorem exists_text {value : Number} (h : value.IsFinite) :
    ∃ numeral : Numeral, numeral.IsDecimal ∧ value.text = numeral.text ∧
      numeral.number = value.readBack := by
  obtain ⟨negative, rank, rfl⟩ := h
  cases hwhole : smallWhole? rank with
  | none =>
      obtain ⟨numeral, hdecimal, hnegative, htext, hnumber⟩ := exists_shortest rank
      have hrank : rank.val ≠ 0 := fun hzero => by
        rw [smallWhole?_zero.mpr hzero] at hwhole
        cases hwhole
      refine ⟨{ numeral with negative }, ⟨hdecimal.1, hdecimal.2, hdecimal.3, hdecimal.4⟩, ?_, ?_⟩
      · simp only [text, hwhole, htext, text_signed numeral hnegative]
      · rw [Numeral.number_signed hnumber hnegative, readBack_of_ne_zero hrank]
  | some whole =>
      cases whole with
      | zero =>
          have hrank := smallWhole?_zero.mp hwhole
          refine ⟨⟨false, ['0'], [], none⟩, ⟨by simp, by simp, by simp, rfl⟩, ?_, ?_⟩
          · simp [text, hwhole, Numeral.text]
          · have := number_of_smallWhole? hwhole false
            simpa [readBack, hrank] using this
      | succ whole =>
          have hrank : rank.val ≠ 0 := fun hzero => by
            rw [smallWhole?_zero.mpr hzero] at hwhole
            cases hwhole
          refine ⟨⟨negative, Nat.toDigits 10 (whole + 1), [], none⟩,
            ⟨Nat.toDigits_ne_nil, ?_, by simp, rfl⟩, ?_, ?_⟩
          · exact fun c hc => Nat.isDigit_of_mem_toDigits (by decide) (by decide) hc
          · cases negative <;> simp [text, hwhole, signed, Numeral.text]
          · rw [number_of_smallWhole? hwhole, readBack_of_ne_zero hrank]

/-- A finite number is read back from its text, but for the sign of a zero. -/
theorem ofText_text {value : Number} (h : value.IsFinite) :
    ofText value.text = value.readBack := by
  obtain ⟨numeral, hdecimal, htext, hnumber⟩ := exists_text h
  rw [htext, Numeral.ofText_text hdecimal.isLiteral, hnumber]

theorem same_readBack {value : Number} (h : value.IsFinite) :
    value.readBack.same value = true := by
  obtain ⟨negative, rank, rfl⟩ := h
  by_cases hzero : rank.val = 0 <;> simp [readBack, same, hzero]

theorem text_readBack {value : Number} (h : value.IsFinite) :
    value.readBack.text = value.text := by
  obtain ⟨negative, rank, rfl⟩ := h
  by_cases hzero : rank.val = 0
  · have hwhole := smallWhole?_zero.mpr hzero
    simp [Number.readBack, text, hwhole]
  · rw [readBack_of_ne_zero hzero]

end Number

end Lookml
