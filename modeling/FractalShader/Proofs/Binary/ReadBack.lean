import FractalShader.Proofs.Decimal.Fences
import FractalShader.Proofs.Decimal.Reading

/-
  Four-byte numbers are read back from their JSON spelling,
  although the reader works with eight bytes and rounds
  again.

  The second rounding goes wrong only if the first result is
  on the other side of a midpoint than the decimal.  Decimals
  with as few digits as are written are midpoints themselves,
  and then the reader is exact, or they are too far from all
  midpoints, but for three that are looked at one by one.

  Main declarations:
    * `SameSide`
    * `Format.Nearest.of_sameSide`
    * `Format.told_midpoint`
    * `Format.sameSide_midpoint`
    * `Format.round_nearMiss`
    * `Format.exists_reading?`
    * `Binary.reading?_numeral?`
-/

------------------------------------------------------------
-- Sides of Midpoints
------------------------------------------------------------

namespace FractalShader

/- A number is on the same side of `y` as another one. -/
structure SameSide (x d y : ℚ) : Prop where
  below : d < y → x < y
  above : y < d → y < x
  on : d = y → x = y

/- What keeps to the sides of the midpoints stays nearest. -/
theorem Format.Nearest.of_sameSide
    {f : Format}
    {rank : Nat}
    {x d : ℚ}
    (h : f.Nearest d rank)
    (hBelow :
      0 < rank → SameSide x d (f.midpoint (rank - 1)))
    (hAbove : SameSide x d (f.midpoint rank)) :
    f.Nearest x rank where
  above := by
    intro hRank
    rcases (h.above hRank).lt_or_eq with hLess | hSame
    · exact ((hBelow hRank).above hLess).le
    · exact ((hBelow hRank).on hSame.symm).ge
  below := by
    rcases h.below.lt_or_eq with hLess | hSame
    · exact (hAbove.below hLess).le
    · exact (hAbove.on hSame).le
  odd := by
    intro hOdd
    have hStrict := h.odd hOdd
    exact
      ⟨(hBelow (by omega)).above hStrict.1,
        hAbove.below hStrict.2⟩

/- Whole numbers that are apart are so on every scale. -/
theorem Apart.scaled
    {x y : Nat}
    (h : Apart x y)
    {scale : ℚ}
    (hScale : 0 < scale) :
    x / scale * (1025 / 2 ^ 62) <
      |(x : ℚ) / scale - y / scale| := by
  have hDist : (Nat.dist x y : ℚ) = |(x : ℚ) - y| := by
    rcases Nat.le_total x y with hLe | hLe
    · have hCast : (x : ℚ) ≤ y := by exact_mod_cast hLe
      rw [Nat.dist_eq_sub_of_le hLe, Nat.cast_sub hLe,
        abs_of_nonpos (by linarith)]
      ring
    · have hCast : (y : ℚ) ≤ x := by exact_mod_cast hLe
      rw [Nat.dist_eq_sub_of_le_right hLe, Nat.cast_sub hLe,
        abs_of_nonneg (by linarith)]
  have hApart : (1025 * x : ℚ) < 2 ^ 62 * |(x : ℚ) - y| := by
    rw [← hDist]
    exact_mod_cast h
  rw [← sub_div, abs_div, abs_of_pos hScale, div_mul_eq_mul_div]
  apply div_lt_div_of_pos_right _ hScale
  linarith

/- What is close to a number is on its side of the rest. -/
theorem Close.sameSide
    {x d y : ℚ}
    (h : Close x d)
    (hPositive : 0 ≤ d)
    (hApart : d * (1025 / 2 ^ 62) < |d - y|) :
    SameSide x d y where
  below := (h.lt_iff hApart).1
  above := (h.lt_iff hApart).2
  on := by
    rintro rfl
    rw [sub_self, abs_zero] at hApart
    exact absurd hApart (not_lt.mpr (by positivity))

end FractalShader

------------------------------------------------------------
-- Midpoints Around a Four-Byte Number
------------------------------------------------------------

namespace FractalShader

namespace Format

variable {rank lower point k start : Nat}

/-
  What can be told of the digits that are found for a number
  and of the midpoints below and above it.
-/
theorem told_midpoint
    (hFound :
      (single.neighborhood rank).Found start (point, k))
    (hPoint : 0 < point)
    (hLow : 104 ≤ k)
    (hHigh : k ≤ 188)
    (hSide : rank = lower ∨ rank = lower + 1) :
    Grid.Told k point
      ((single.units lower + single.units (lower + 1)) *
        5 ^ single.unitBits) := by
  have hClear := Grid.clear_of_le hLow hHigh
  rcases single.exists_units_succ lower with
    ⟨shift, steps, _, hSteps, hHere, hNext⟩
  have hSteps : steps < 2 * 2 ^ 23 := hSteps
  have hSmall : 2 * steps + 1 ≤ Grid.bound := by
    unfold Grid.bound
    omega
  have hMidpoint :
      (single.units lower + single.units (lower + 1)) *
          5 ^ single.unitBits =
        (2 * steps + 1) * (2 ^ shift * 5 ^ (149 : Nat)) := by
    rw [hHere, hNext, unitBits_single]
    ring
  rw [hMidpoint]
  by_cases hShift : shift ≤ Grid.level k
  · exact
      Grid.told_of_level hClear hPoint (by omega) hSmall hShift
  · apply
      Grid.told_of_near hClear hSmall (by omega)
        hFound.le_value hFound.value_le
    have hValue :
        (single.neighborhood rank).value =
          2 * steps * (2 ^ shift * 5 ^ (149 : Nat)) ∨
        (single.neighborhood rank).value =
          (2 * steps + 2) * (2 ^ shift * 5 ^ (149 : Nat)) := by
      change 2 * single.units rank * 5 ^ single.unitBits = _ ∨ _
      rcases hSide with rfl | rfl
      · left
        rw [hHere, unitBits_single]
        ring
      · right
        change
          2 * single.units (lower + 1) * 5 ^ single.unitBits = _
        rw [hNext, unitBits_single]
        ring
    generalize 2 ^ shift * 5 ^ (149 : Nat) = half at hValue ⊢
    rw [Nat.add_mul] at hValue
    rw [Nat.add_mul, Nat.one_mul]
    unfold Nat.dist
    omega

/- A midpoint of four-byte numbers has eight bytes. -/
theorem exists_double_midpoint (lower : Nat) :
    ∃ rank, single.midpoint lower = double.magnitude rank := by
  rcases single.exists_units_succ lower with
    ⟨shift, steps, _, hSteps, hHere, hNext⟩
  have hSteps : steps < 2 * 2 ^ 23 := hSteps
  have hFit : 2 * steps + 1 ≤ 2 * 2 ^ double.fractionBits := by
    change 2 * steps + 1 ≤ 2 * 2 ^ 52
    omega
  rcases double.exists_magnitude_eq hFit (shift + 924) with
    ⟨rank, hRank⟩
  refine ⟨rank, ?_⟩
  rw [hRank, midpoint, magnitude, magnitude, hHere, hNext,
    unitBits_single, unitBits_double, pow_add,
    show 1074 = 149 + 1 + 924 from rfl, pow_add]
  push_cast
  rw [← mul_assoc, mul_div_mul_right _ _ (by positivity)]
  rw [pow_succ]
  field_simp
  ring

/-
  The digits that are found for a number are read as a rank
  on their side of a midpoint, unless they are near misses.
-/
theorem sameSide_midpoint
    (hTold :
      Grid.Told k point
        ((single.units lower + single.units (lower + 1)) *
          5 ^ single.unitBits))
    (hFar : (k, point) ∉ Grid.nearDigits)
    {read : Nat}
    (hRead :
      (Decimal.mk point ((k : Int) - single.unitBits)).ReadAs
        read) :
    SameSide (double.magnitude read)
      (Decimal.mk point ((k : Int) - single.unitBits)).value
      (single.midpoint lower) := by
  have hValue := single.value_eq_halfSteps point k
  have hMidpoint := single.midpoint_eq_halfSteps lower
  rcases hTold with ⟨hExact, hRange⟩ | hApart | hNear
  · have hSame :
        (Decimal.mk point ((k : Int) - single.unitBits)).value =
          single.midpoint lower := by
      rw [hValue, hMidpoint, ← hExact]
      rfl
    rcases exists_double_midpoint lower with ⟨other, hOther⟩
    have hBits : (single.unitBits : Int) = 149 := rfl
    have hReadOther : read = other :=
      hRead.exact
        (show (-22 : Int) ≤ (k : Int) - single.unitBits by omega)
        (show (k : Int) - single.unitBits ≤ 22 by omega) other
        (hSame.trans hOther)
    rw [hReadOther, ← hOther, hSame]
    exact ⟨id, id, id⟩
  · apply hRead.close.sameSide
    · rw [hValue]
      positivity
    · rw [hValue, hMidpoint]
      exact hApart.scaled single.halfSteps_pos
  · exact absurd hNear hFar

end Format

end FractalShader

------------------------------------------------------------
-- Near Misses
------------------------------------------------------------

namespace FractalShader

/- A decimal with a negative exponent is a quotient. -/
theorem Decimal.value_eq_div
    (point : Nat)
    {k : Nat}
    (h : k ≤ 149) :
    (Decimal.mk point ((k : Int) - 149)).value =
      (point : ℚ) / (10 ^ (149 - k) : Nat) := by
  rw [value,
    show (k : Int) - 149 = -((149 - k : Nat) : Int) by omega,
    zpow_neg, zpow_natCast, ← div_eq_mul_inv, Nat.cast_pow,
    Nat.cast_ofNat]

namespace Format

/-
  The near misses are rounded twice to what they are rounded
  to at once.
-/
theorem round_nearMiss
    {k point : Nat}
    (h : (k, point) ∈ Grid.nearDigits) :
    (Decimal.mk point ((k : Int) - 149)).read?.map
        (fun read =>
          single.round (double.units read)
            (2 ^ double.unitBits)) =
      some (single.round point (10 ^ (149 - k))) ∧
      k < 149 := by
  revert h
  have hAll :
      ∀ pair ∈ Grid.nearDigits,
        (Decimal.mk pair.2 ((pair.1 : Int) - 149)).read?.map
            (fun read =>
              single.round (double.units read)
                (2 ^ double.unitBits)) =
          some (single.round pair.2 (10 ^ (149 - pair.1))) ∧
          pair.1 < 149 := by
    decide +kernel
  exact hAll (k, point)

end Format

end FractalShader

------------------------------------------------------------
-- Numbers That Are Read Back
------------------------------------------------------------

namespace FractalShader

namespace Format

variable {rank : Nat}

/-
  The JSON spelling of the shortest digits of a number is
  read as an eight-byte number that rounds to it.
-/
theorem exists_reading?
    (hRank : 0 < rank)
    (hFinite : rank < single.infinity)
    (tie : Decimal.Tie)
    (negative : Bool) :
    ∃ read,
      ((single.shortest tie rank).spell .jsonSingle
            negative).reading? =
          some (.double (.ofRank negative read)) ∧
        read < double.infinity ∧
        single.round (double.units read)
            (2 ^ double.unitBits) = rank := by
  rcases shortest_single hRank hFinite tie with
    ⟨point, k, hShortest, hFound, hPoint, hFew, hLow, hHigh⟩
  have hNearest := single.nearest_shortest hRank tie
  rw [hShortest] at hNearest ⊢
  have hSpelled :=
    Decimal.exists_reading?_spell
      (d := ⟨point, (k : Int) - 149⟩) hPoint hFew
      (show (-45 : Int) ≤ (k : Int) - 149 by omega)
      (show (k : Int) - 149 ≤ 39 by omega) negative
  rcases hSpelled with ⟨read, hReading, hRead, hDirect⟩
  refine ⟨read, hReading, hRead.finite, ?_⟩
  have hQuotient :
      (double.units read : ℚ) / (2 ^ double.unitBits : Nat) =
        double.magnitude read := by
    rw [magnitude, Nat.cast_pow, Nat.cast_ofNat]
  by_cases hNear : (k, point) ∈ Grid.nearDigits
  · rcases round_nearMiss hNear with ⟨hTwice, hFine⟩
    rw [hDirect (show (k : Int) - 149 < 0 by omega),
      Option.map_some] at hTwice
    rw [Option.some.inj hTwice]
    have hDecimal := Decimal.value_eq_div point hFine.le
    exact
      round_of_nearest (by decide) (Nat.pow_pos (by decide))
        (hDecimal ▸ hNearest) hFinite.le
  · have hSide {lower : Nat}
        (hLower : rank = lower ∨ rank = lower + 1) :=
      sameSide_midpoint
        (told_midpoint hFound hPoint hLow hHigh hLower) hNear
        hRead
    have hAgain : single.Nearest (double.magnitude read) rank :=
      hNearest.of_sameSide
        (fun _ => hSide (Or.inr (by omega)))
        (hSide (Or.inl rfl))
    exact
      round_of_nearest (by decide) (Nat.two_pow_pos _)
        (hQuotient ▸ hAgain) hFinite.le

end Format

namespace Binary

/- The number of a rank of a finite number. -/
theorem ofRank_val
    {f : Format}
    (negative : Bool)
    (rank : Fin (f.infinity + 1)) :
    ofRank negative rank.val = .signed negative rank := by
  unfold ofRank
  congr
  exact Nat.min_eq_left (Nat.le_of_lt_succ rank.isLt)

/- A finite number is converted by rounding its magnitude. -/
theorem convert_ofRank
    {f g : Format}
    {rank : Nat}
    (negative : Bool)
    (h : rank < g.infinity) :
    (ofRank negative rank : Binary g).convert =
      (ofRank negative
        (f.round (g.units rank) (2 ^ g.unitBits)) :
          Binary f) := by
  have hMin : min rank g.infinity = rank :=
    Nat.min_eq_left h.le
  simp only [ofRank, convert, hMin]
  rw [if_neg h.ne]

/- Zero is read back with its sign. -/
theorem reading?_zero (negative : Bool) :
    (Numeral.mk negative 0 [.zero] none).reading?.map
        Reading.toBinary =
      some (zero negative : F32) := by
  cases negative <;> decide +kernel

/-
  Every finite four-byte number has a JSON spelling, and the
  number is read back from it.
-/
theorem reading?_numeral?
    {v : F32}
    (h : v.isFinite = true) :
    ∃ n,
      v.numeral? .jsonSingle = some n ∧
        n.reading?.map Reading.toBinary = some v := by
  cases v with
  | nan => cases h
  | signed negative rank =>
      have hFinite : rank.val < Format.single.infinity := by
        simpa [isFinite] using h
      by_cases hZero : rank.val = 0
      · refine ⟨⟨negative, 0, [.zero], none⟩, ?_, ?_⟩
        · simp only [numeral?, if_neg hFinite.ne, if_pos hZero]
        · rw [reading?_zero, zero, ← hZero, ofRank_val]
      · have hRank : 0 < rank.val := by omega
        rcases Format.exists_reading? hRank hFinite
            Decimal.Layout.jsonSingle.tie negative with
          ⟨read, hReading, hRead, hRound⟩
        refine
          ⟨(Format.single.shortest
            Decimal.Layout.jsonSingle.tie rank).spell .jsonSingle
              negative, ?_, ?_⟩
        · simp only [numeral?, if_neg hFinite.ne, if_neg hZero]
        · rw [hReading, Option.map_some, Reading.toBinary,
            convert_ofRank negative hRead, hRound, ofRank_val]

end Binary

end FractalShader
