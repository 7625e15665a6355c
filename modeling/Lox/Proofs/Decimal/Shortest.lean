import Mathlib.Algebra.Group.Nat.Defs
import Lox.Decimal.Shortest
import Lox.Proofs.Decimal.Text

/-!
# Rounding intervals

A decimal fraction lies in the interval of at most one binary fraction
(`RoundingInterval.ofNormalized_inj`): the intervals follow each other in the order of the
fractions, and where two of them touch, at most one is closed.  The shortest fraction of an interval
lies in it (`RoundingInterval.mem_shortest`), since the finest grid has the centre itself as a point.
So different binary fractions have different shortest decimal fractions.
-/

namespace Lox

namespace RoundingInterval

/-- The fraction lies in the interval. -/
def Mem (i : RoundingInterval) (d : Decimal) : Prop :=
  let x := d.units <<< unitExponent
  let lower := i.lower * powTen d.places
  let upper := i.upper * powTen d.places
  if i.closed then lower ≤ x ∧ x ≤ upper else lower < x ∧ x < upper

theorem Mem.le {i : RoundingInterval} {d : Decimal} (h : i.Mem d) :
    i.lower * powTen d.places ≤ d.units <<< unitExponent ∧
      d.units <<< unitExponent ≤ i.upper * powTen d.places := by
  unfold Mem at h
  dsimp only at h
  split at h
  · exact h
  · exact ⟨Nat.le_of_lt h.1, Nat.le_of_lt h.2⟩

theorem Mem.lt {i : RoundingInterval} {d : Decimal} (h : i.Mem d) (ho : i.closed = false) :
    i.lower * powTen d.places < d.units <<< unitExponent ∧
      d.units <<< unitExponent < i.upper * powTen d.places := by
  unfold Mem at h
  rwa [ho, if_neg (by decide)] at h

theorem Mem.of_lt {i : RoundingInterval} {d : Decimal}
    (hl : i.lower * powTen d.places < d.units <<< unitExponent)
    (hu : d.units <<< unitExponent < i.upper * powTen d.places) : i.Mem d := by
  unfold Mem
  dsimp only
  split
  · exact ⟨Nat.le_of_lt hl, Nat.le_of_lt hu⟩
  · exact ⟨hl, hu⟩

/-- An interval above zero has only positive fractions in it. -/
theorem Mem.units_pos {i : RoundingInterval} {d : Decimal} (h : i.Mem d) (hl : 0 < i.lower) :
    0 < d.units := by
  have hpos : 0 < i.lower * powTen d.places := Nat.mul_pos hl (Decimal.powTen_pos d.places)
  have hle := h.le.1
  rw [Nat.shiftLeft_eq] at hle
  exact Nat.pos_of_mul_pos_right (Nat.lt_of_lt_of_le hpos hle)

/-! ### The shortest fraction -/

theorem units_point_shiftLeft (g : Grid) (n : Nat) :
    (g.point n).units <<< unitExponent = n * g.step := by
  rw [Grid.point, Grid.step, Nat.shiftLeft_eq, Nat.shiftLeft_eq, Nat.mul_assoc]

theorem contains_iff {i : RoundingInterval} {g : Grid} {n : Nat} :
    i.contains g n = true ↔ i.Mem (g.point n) := by
  unfold contains Mem
  dsimp only
  rw [units_point_shiftLeft, show (g.point n).places = g.places from rfl]
  cases i.closed
  · rw [if_neg (by decide), if_neg (by decide), Bool.and_eq_true, decide_eq_true_iff,
      decide_eq_true_iff]
  · rw [if_pos rfl, if_pos rfl, Bool.and_eq_true, decide_eq_true_iff, decide_eq_true_iff]

theorem mem_of_nearest? {i : RoundingInterval} {g : Grid} {d : Decimal}
    (h : i.nearest? g = some d) : i.Mem d := by
  unfold nearest? at h
  dsimp only at h
  split at h
  · next hbelow habove =>
    cases h
    split
    · exact contains_iff.1 hbelow
    · exact contains_iff.1 habove
  · next hbelow _ =>
    cases h
    exact contains_iff.1 hbelow
  · next _ habove =>
    cases h
    exact contains_iff.1 habove
  · cases h

/-- The grid of the units of an interval. -/
def finest : Grid :=
  ⟨0, unitExponent⟩

theorem finest_mem_grids (i : RoundingInterval) : finest ∈ i.grids :=
  List.mem_append_right _
    (List.mem_map.2 ⟨unitExponent, List.mem_range.2 (Nat.lt_succ_self _), rfl⟩)

/-- The finest grid has the centre as a point. -/
theorem isSome_nearest?_finest {i : RoundingInterval} (hl : i.lower < i.centre)
    (hu : i.centre < i.upper) : (i.nearest? finest).isSome := by
  have hstep : finest.step = 2 ^ unitExponent := by
    rw [Grid.step, Nat.shiftLeft_eq, show powTen finest.zeros = 1 from rfl, Nat.one_mul]
  obtain ⟨k, hk⟩ : ∃ k, powTen unitExponent = k * finest.step :=
    ⟨5 ^ unitExponent, by rw [hstep, Decimal.powTen_eq_mul]⟩
  have hpos : 0 < powTen unitExponent := Decimal.powTen_pos unitExponent
  have hx : i.centre * powTen unitExponent = i.centre * k * finest.step := by
    rw [hk, Nat.mul_assoc]
  have hbelow : i.centre * powTen unitExponent / finest.step = i.centre * k := by
    rw [hx, hstep, Nat.mul_div_cancel _ (Nat.pow_pos (by decide))]
  have hcentre : i.contains finest (i.centre * k) = true := by
    refine contains_iff.2 (.of_lt ?_ ?_) <;> rw [units_point_shiftLeft, ← hx]
    · exact Nat.mul_lt_mul_of_pos_right hl hpos
    · exact Nat.mul_lt_mul_of_pos_right hu hpos
  unfold nearest?
  dsimp only
  rw [show finest.places = unitExponent from rfl, hbelow, hcentre]
  cases i.contains finest (i.centre * k + 1) <;> rfl

theorem mem_shortest {i : RoundingInterval} (hl : i.lower < i.centre) (hu : i.centre < i.upper) :
    i.Mem i.shortest := by
  have hsome : (i.grids.findSome? i.nearest?).isSome :=
    List.findSome?_isSome_iff.2 ⟨finest, finest_mem_grids i, isSome_nearest?_finest hl hu⟩
  obtain ⟨d, hd⟩ := Option.isSome_iff_exists.1 hsome
  obtain ⟨g, -, hg⟩ := List.exists_of_findSome?_eq_some hd
  rw [shortest, hd]
  exact mem_of_nearest? hg

/-! ### Intervals in a row -/

/-- The interval `i` ends before the interval `j` starts; if they touch, not both are closed. -/
def Below (i j : RoundingInterval) : Prop :=
  i.upper < j.lower ∨ i.upper = j.lower ∧ (i.closed = false ∨ j.closed = false)

theorem Below.not_mem {i j : RoundingInterval} (h : i.Below j) {d : Decimal} (hi : i.Mem d) :
    ¬j.Mem d := by
  intro hj
  have hi' := hi.le.2
  have hj' := hj.le.1
  rcases h with h | ⟨h, hopen | hopen⟩
  · have key := Nat.mul_lt_mul_of_pos_right h (Decimal.powTen_pos d.places)
    omega
  · have key := (hi.lt hopen).2
    rw [h] at key
    omega
  · have key := (hj.lt hopen).1
    rw [← h] at key
    omega

/-- The binary fraction `mantissa * 2 ^ scale / 2 ^ 1074` is positive and has 53 bits: its mantissa
fills them unless the scale is the smallest. -/
structure Normalized (mantissa scale : Nat) : Prop where
  pos : 0 < mantissa
  lt : mantissa < 2 ^ 53
  full : 0 < scale → 2 ^ 52 ≤ mantissa

/-- The interval of a binary fraction of 53 bits. -/
def ofNormalized (mantissa scale : Nat) : RoundingInterval :=
  .ofBinary mantissa scale (mantissa = 2 ^ 52 && 0 < scale)

variable {m n s t : Nat}

/-- How far an interval reaches down, in quarters of the distance of the fractions above it. -/
theorem lower_ofNormalized (m s : Nat) : ∃ c, (c = 1 ∧ m = 2 ^ 52 ∨ c = 2 ∧ ¬(m = 2 ^ 52 ∧ 0 < s)) ∧
    (ofNormalized m s).lower = (4 * m - c) * 2 ^ s := by
  by_cases h : m = 2 ^ 52 ∧ 0 < s
  · refine ⟨1, .inl ⟨rfl, h.1⟩, ?_⟩
    simp [ofNormalized, ofBinary, h, Nat.shiftLeft_eq]
  · refine ⟨2, .inr ⟨rfl, h⟩, ?_⟩
    have hnarrow : (decide (m = 2 ^ 52) && decide (0 < s)) = false := by simpa using h
    rw [ofNormalized, hnarrow, ofBinary, Nat.shiftLeft_eq]
    rfl

theorem upper_ofNormalized (m s : Nat) : (ofNormalized m s).upper = (4 * m + 2) * 2 ^ s :=
  Nat.shiftLeft_eq _ _

theorem closed_ofNormalized (m s : Nat) : (ofNormalized m s).closed = decide (m % 2 = 0) :=
  rfl

theorem lower_lt_centre (hm : 0 < m) (s : Nat) :
    (ofNormalized m s).lower < (ofNormalized m s).centre := by
  obtain ⟨c, hc, hlower⟩ := lower_ofNormalized m s
  have hlt : 4 * m - c < 4 * m := by omega
  have hcentre : (ofNormalized m s).centre = 4 * m * 2 ^ s := Nat.shiftLeft_eq _ _
  rw [hlower, hcentre]
  exact Nat.mul_lt_mul_of_pos_right hlt (Nat.pow_pos (by decide))

theorem centre_lt_upper (m s : Nat) : (ofNormalized m s).centre < (ofNormalized m s).upper := by
  have hcentre : (ofNormalized m s).centre = 4 * m * 2 ^ s := Nat.shiftLeft_eq _ _
  rw [hcentre, upper_ofNormalized]
  exact Nat.mul_lt_mul_of_pos_right (by omega) (Nat.pow_pos (by decide))

theorem lower_pos (hm : 0 < m) (s : Nat) : 0 < (ofNormalized m s).lower := by
  obtain ⟨c, hc, hlower⟩ := lower_ofNormalized m s
  rw [hlower]
  exact Nat.mul_pos (by omega) (Nat.pow_pos (by decide))

/-- On one scale the larger mantissa has the upper interval: they touch if they are neighbours, and
then one of them is odd. -/
theorem below_of_mantissa_lt (h : m < n) (s : Nat) :
    (ofNormalized m s).Below (ofNormalized n s) := by
  obtain ⟨c, hc, hlower⟩ := lower_ofNormalized n s
  have hpow : 0 < 2 ^ s := Nat.pow_pos (by decide)
  unfold Below
  rw [hlower, upper_ofNormalized, closed_ofNormalized, closed_ofNormalized]
  by_cases heq : 4 * m + 2 = 4 * n - c
  · rw [heq]
    have hparity : m % 2 ≠ 0 ∨ n % 2 ≠ 0 := by omega
    exact .inr ⟨rfl, by simpa using hparity⟩
  · exact .inl (Nat.mul_lt_mul_of_pos_right (by omega) hpow)

/-- The larger scale has the upper interval: at most the one with the largest mantissa of the scale
below touches it, and that mantissa is odd. -/
theorem below_of_scale_lt (hm : Normalized m s) (hn : Normalized n t) (h : s < t) :
    (ofNormalized m s).Below (ofNormalized n t) := by
  obtain ⟨c, hc, hlower⟩ := lower_ofNormalized n t
  have hpow : 0 < 2 ^ s := Nat.pow_pos (by decide)
  have hfull := hn.full (by omega)
  have hlt := hm.lt
  -- the interval above starts no lower than here
  have hstart : (2 ^ 54 - 1) * (2 * 2 ^ s) ≤ (4 * n - c) * 2 ^ t := by
    refine Nat.mul_le_mul (by omega) ?_
    rw [Nat.mul_comm, ← Nat.pow_succ]
    exact Nat.pow_le_pow_right (by decide) h
  unfold Below
  rw [hlower, upper_ofNormalized, closed_ofNormalized, closed_ofNormalized]
  by_cases hmax : m = 2 ^ 53 - 1
  · have hodd : decide (m % 2 = 0) = false := by
      rw [hmax]
      decide
    rw [hodd]
    have hend : (4 * m + 2) * 2 ^ s = (2 ^ 54 - 1) * (2 * 2 ^ s) := by
      rw [hmax]
      omega
    rw [hend]
    exact (Nat.lt_or_eq_of_le hstart).imp_right fun h => ⟨h, .inl rfl⟩
  · have hend : (4 * m + 2) * 2 ^ s < (2 ^ 54 - 1) * 2 * 2 ^ s :=
      Nat.mul_lt_mul_of_pos_right (by omega) hpow
    rw [Nat.mul_assoc] at hend
    exact .inl (Nat.lt_of_lt_of_le hend hstart)

/-- A decimal fraction lies in the interval of at most one binary fraction. -/
theorem ofNormalized_inj (hm : Normalized m s) (hn : Normalized n t) {d : Decimal}
    (h : (ofNormalized m s).Mem d) (h' : (ofNormalized n t).Mem d) : m = n ∧ s = t := by
  rcases Nat.lt_trichotomy s t with hst | rfl | hst
  · exact absurd h' ((below_of_scale_lt hm hn hst).not_mem h)
  · rcases Nat.lt_trichotomy m n with hmn | rfl | hmn
    · exact absurd h' ((below_of_mantissa_lt hmn s).not_mem h)
    · exact ⟨rfl, rfl⟩
    · exact absurd h ((below_of_mantissa_lt hmn s).not_mem h')
  · exact absurd h ((below_of_scale_lt hn hm hst).not_mem h')

theorem shortest_ofNormalized_mem (hm : 0 < m) (s : Nat) :
    (ofNormalized m s).Mem (ofNormalized m s).shortest :=
  mem_shortest (lower_lt_centre hm s) (centre_lt_upper m s)

end RoundingInterval

end Lox
