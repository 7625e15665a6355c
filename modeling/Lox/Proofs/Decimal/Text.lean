import Mathlib.Algebra.Group.Nat.Defs
import Lox.Decimal

/-!
# The text of a decimal fraction

What is written for a decimal fraction is a numeral: digits with at most one point, a digit first
(`isDigit_or_eq_point`, `exists_digits_eq_cons`).  The key fact: the numeral denotes the fraction it
was written for (`ofNumeral_digits`), so different fractions have different texts, also when they
differ in nothing but zeros at the end.
-/

namespace Lox

namespace Decimal

theorem powTen_eq_mul (k : Nat) : powTen k = 5 ^ k * 2 ^ k :=
  Nat.mul_pow 5 2 k

theorem powTen_pos (k : Nat) : 0 < powTen k :=
  Nat.pow_pos (by decide)

/-! ### Rows of digits -/

theorem ofDigits_eq (cs : List Char) : ofDigits cs = Nat.ofDigitChars 10 cs 0 :=
  Nat.ofDigitChars_eq_foldl.symm

theorem ofDigits_append (cs ds : List Char) :
    ofDigits (cs ++ ds) = powTen ds.length * ofDigits cs + ofDigits ds := by
  rw [ofDigits_eq, ofDigits_eq, ofDigits_eq, Nat.ofDigitChars_append,
    Nat.ofDigitChars_eq_ofDigitChars_zero]
  rfl

theorem ofDigits_toDigits (n : Nat) : ofDigits (Nat.toDigits 10 n) = n := by
  rw [ofDigits_eq, Nat.ofDigitChars_ten_toDigits]

theorem isDigit_of_mem_toDigits {n : Nat} {c : Char} (h : c ∈ Nat.toDigits 10 n) :
    c.isDigit = true :=
  Nat.isDigit_of_mem_toDigits (by decide) (by decide) h

theorem ofDigits_paddedDigits (width n : Nat) : ofDigits (paddedDigits width n) = n := by
  have hzeros (k : Nat) : ofDigits (List.replicate k '0') = 0 := by
    rw [ofDigits_eq, Nat.ofDigitChars_replicate_zero, Nat.mul_zero]
  rw [paddedDigits, ofDigits_append, hzeros, ofDigits_toDigits, Nat.mul_zero, Nat.zero_add]

theorem isDigit_of_mem_paddedDigits {width n : Nat} {c : Char} (h : c ∈ paddedDigits width n) :
    c.isDigit = true := by
  rcases List.mem_append.1 h with h | h
  · rw [List.eq_of_mem_replicate h]
    decide
  · exact isDigit_of_mem_toDigits h

theorem length_paddedDigits {width n : Nat} (hw : 0 < width) (h : n < powTen width) :
    (paddedDigits width n).length = width := by
  have hle : (Nat.toDigits 10 n).length ≤ width :=
    (Nat.length_toDigits_le_iff (by decide) hw).2 h
  rw [paddedDigits, List.length_append, List.length_replicate]
  omega

/-! ### Numerals -/

/-- Digits in front of something else are the whole part of a numeral. -/
theorem ofNumeral_append {cs ds : List Char} (hcs : ∀ c ∈ cs, c.isDigit = true)
    (hds : ∀ d ∈ ds.head?, d.isDigit = false) :
    ofNumeral (cs ++ ds) = ⟨ofDigits (cs ++ ds.drop 1), (ds.drop 1).length⟩ := by
  have htake : ds.takeWhile Char.isDigit = [] := by
    cases ds with
    | nil => rfl
    | cons d ds => simp [hds d rfl]
  have hdrop : ds.dropWhile Char.isDigit = ds := by
    cases ds with
    | nil => rfl
    | cons d ds => simp [hds d rfl]
  rw [ofNumeral, List.takeWhile_append_of_pos hcs, List.dropWhile_append_of_pos hcs, htake, hdrop,
    List.append_nil]

theorem ofNumeral_digits (d : Decimal) : ofNumeral d.digits = d := by
  obtain ⟨units, places⟩ := d
  unfold digits
  dsimp only
  split
  · next h =>
    have hall : ∀ c ∈ Nat.toDigits 10 units, c.isDigit = true := fun c => isDigit_of_mem_toDigits
    have key := ofNumeral_append hall (by simp : ∀ d ∈ [].head?, Char.isDigit d = false)
    rw [List.append_nil, List.drop_nil, List.append_nil, ofDigits_toDigits] at key
    rw [key, h, List.length_nil]
  · next h =>
    have hmod : units % powTen places < powTen places := Nat.mod_lt _ (powTen_pos places)
    have hlength := length_paddedDigits (Nat.pos_of_ne_zero h) hmod
    rw [ofNumeral_append (fun c => isDigit_of_mem_toDigits) (by simp), List.drop_one,
      List.tail_cons, hlength, ofDigits_append, hlength, ofDigits_toDigits, ofDigits_paddedDigits,
      Nat.div_add_mod]

theorem digits_injective {d e : Decimal} (h : d.digits = e.digits) : d = e := by
  rw [← ofNumeral_digits d, h, ofNumeral_digits]

/-! ### Characters -/

theorem isDigit_or_eq_point {d : Decimal} {c : Char} (h : c ∈ d.digits) :
    c.isDigit = true ∨ c = '.' := by
  unfold digits at h
  split at h
  · exact .inl (isDigit_of_mem_toDigits h)
  · rcases List.mem_append.1 h with h | h
    · exact .inl (isDigit_of_mem_toDigits h)
    · rcases List.mem_cons.1 h with h | h
      · exact .inr h
      · exact .inl (isDigit_of_mem_paddedDigits h)

theorem exists_digits_eq_cons (d : Decimal) : ∃ c cs, d.digits = c :: cs ∧ c.isDigit = true := by
  have key (n : Nat) : ∃ c cs, Nat.toDigits 10 n = c :: cs ∧ c.isDigit = true := by
    obtain ⟨c, cs, h⟩ := List.exists_cons_of_ne_nil (Nat.toDigits_ne_nil (n := n) (b := 10))
    exact ⟨c, cs, h, isDigit_of_mem_toDigits (h ▸ List.mem_cons_self)⟩
  unfold digits
  split
  · exact key d.units
  · obtain ⟨c, cs, h, hc⟩ := key (d.units / powTen d.places)
    exact ⟨c, _, by rw [h, List.cons_append], hc⟩

end Decimal

end Lox
