import Mathlib.Data.List.DropRight
import Mathlib.Data.List.Lemmas
import Mathlib.Data.Prod.Lex
import Mathlib.Order.Lattice
import Lox.Position
import Lox.Text.Line

/-!
# Places in a text

Where a lexeme is placed, read off the text itself: the line is counted by the newlines up to its
end, the column by the characters between the last newline and its beginning.  The key facts:
walking over a text leads to the place behind it (`Place.after_start`), lexemes are placed in
their order (`Place.ofLexeme_lt`), and the line with the number of a place is found by splitting
the text at its newlines (`Text.line?_append`).
-/

namespace Lox

namespace Text

/-- The characters behind the last newline. -/
def lastLine (cs : List Char) : List Char :=
  cs.rtakeWhile (· ≠ '\n')

theorem lastLine_concat (cs : List Char) (c : Char) :
    lastLine (cs ++ [c]) = if c = '\n' then [] else lastLine cs ++ [c] := by
  by_cases h : c = '\n' <;> simp [lastLine, h]

theorem lastLine_append_of_not_mem {ds : List Char} (h : '\n' ∉ ds) (cs : List Char) :
    lastLine (cs ++ ds) = lastLine cs ++ ds := by
  induction ds using List.reverseRecOn with
  | nil => simp
  | append_singleton ds d ih =>
    rw [List.mem_append, List.mem_singleton, not_or] at h
    rw [← List.append_assoc, lastLine_concat, if_neg (Ne.symm h.2), ih h.1, List.append_assoc]

theorem lastLine_append_of_mem {ds : List Char} (h : '\n' ∈ ds) (cs : List Char) :
    lastLine (cs ++ ds) = lastLine ds := by
  induction ds using List.reverseRecOn with
  | nil => cases h
  | append_singleton ds d ih =>
    rw [← List.append_assoc, lastLine_concat, lastLine_concat]
    by_cases hd : d = '\n'
    · rw [if_pos hd, if_pos hd]
    · rw [List.mem_append, List.mem_singleton] at h
      rw [if_neg hd, if_neg hd, ih (h.resolve_right (Ne.symm hd))]

theorem lastLine_of_not_mem {cs : List Char} (h : '\n' ∉ cs) : lastLine cs = cs :=
  lastLine_append_of_not_mem h []

theorem lastLine_cons_newline (cs : List Char) : lastLine ('\n' :: cs) = lastLine cs := by
  by_cases h : '\n' ∈ cs
  · exact lastLine_append_of_mem h ['\n']
  · rw [lastLine_of_not_mem h]
    exact lastLine_append_of_not_mem h ['\n']

end Text

/-! ### Places -/

/-- Places in the order of reading: by line, and by column within a line. -/
instance : LinearOrder Place :=
  LinearOrder.lift' (fun p => toLex (p.line, p.column)) fun p q h => by
    obtain ⟨hline, hcolumn⟩ := Prod.mk.inj (toLex.injective h)
    cases p
    cases q
    simp_all

instance : LinearOrder Position :=
  LinearOrder.lift' Position.place fun _ _ => Position.place_injective

namespace Place

theorem lt_iff {p q : Place} :
    p < q ↔ p.line < q.line ∨ p.line = q.line ∧ p.column < q.column :=
  Prod.Lex.lt_iff

/-- Where a lexeme `w` is placed that has the text `before` in front of it: on the line on which it
ends, in column 1 if it begins on an earlier one. -/
def ofLexeme (before w : List Char) : Place :=
  ⟨1 + (before ++ w).count '\n', if '\n' ∈ w then 1 else 1 + (Text.lastLine before).length⟩

theorem le_next (p : Place) (c : Char) : p ≤ p.next c := by
  refine le_of_lt (lt_iff.2 ?_)
  by_cases h : c = '\n' <;> simp [next, h]

theorem le_after (p : Place) (cs : List Char) : p ≤ p.after cs := by
  induction cs generalizing p with
  | nil => exact le_refl p
  | cons c cs ih => exact (p.le_next c).trans (ih (p.next c))

theorem after_start (cs : List Char) : start.after cs = ofLexeme cs [] := by
  induction cs using List.reverseRecOn with
  | nil => rfl
  | append_singleton cs c ih =>
    rw [after_append, ih]
    by_cases h : c = '\n' <;> simp [ofLexeme, next, Text.lastLine_concat, h]
    all_goals omega

/-- Farther on in the text places are not smaller. -/
theorem ofLexeme_nil_le_append (before w : List Char) :
    ofLexeme before [] ≤ ofLexeme (before ++ w) [] := by
  rw [← after_start, ← after_start, after_append]
  exact le_after _ w

theorem one_le_column_ofLexeme (before w : List Char) : 1 ≤ (ofLexeme before w).column := by
  unfold ofLexeme
  split <;> simp

theorem ofLexeme_of_not_mem {w : List Char} (h : '\n' ∉ w) (before : List Char) :
    ofLexeme before w = ofLexeme before [] := by
  simp [ofLexeme, h, List.count_eq_zero_of_not_mem h]

theorem ofLexeme_nil_le (before w : List Char) : ofLexeme before [] ≤ ofLexeme before w := by
  by_cases h : '\n' ∈ w
  · have hcount := List.count_pos_iff.2 h
    refine le_of_lt (lt_iff.2 (.inl ?_))
    simp only [ofLexeme, List.append_nil, List.count_append]
    omega
  · exact (ofLexeme_of_not_mem h before).ge

/-- A lexeme that does not end with a newline is placed before what follows it. -/
theorem ofLexeme_lt {w : List Char} {c : Char} (hc : c ≠ '\n') (before : List Char) :
    ofLexeme before (w ++ [c]) < ofLexeme (before ++ (w ++ [c])) [] := by
  refine lt_iff.2 (.inr ⟨by simp [ofLexeme], ?_⟩)
  by_cases h : '\n' ∈ w ++ [c]
  · have hlast : Text.lastLine (before ++ (w ++ [c])) ≠ [] := by
      rw [Text.lastLine_append_of_mem h, Text.lastLine_concat, if_neg hc]
      simp
    have := List.length_pos_iff.2 hlast
    simp only [ofLexeme, if_pos h, List.not_mem_nil, if_false]
    omega
  · simp [ofLexeme, h, Text.lastLine_append_of_not_mem h before]

theorem Fits.position_lt {p q : Place} (hp : p.Fits) (hq : q.Fits) (h : p < q) :
    p.position < q.position := by
  show p.position.place < q.position.place
  rwa [hp.place_position, hq.place_position]

end Place

/-! ### Texts whose places fit -/

namespace Text

theorem Fits.ofLexeme {before w rest : List Char} (h : Fits (before ++ w ++ rest)) :
    (Place.ofLexeme before w).Fits := by
  have hline := (h (before ++ w) (List.prefix_append _ rest)).line
  have hcolumn := (h before (List.append_assoc before w rest ▸ List.prefix_append ..)).column
  rw [Place.after_start] at hline hcolumn
  refine ⟨by simpa [Place.ofLexeme] using hline, ?_⟩
  unfold Place.ofLexeme
  split
  · exact show 1 < UInt32.size by decide
  · simpa [Place.ofLexeme] using hcolumn

/-- In a text of fewer than 2³² - 1 characters no number has more than 32 bits. -/
theorem fits_of_length_lt {cs : List Char} (h : cs.length + 1 < UInt32.size) : Fits cs := by
  intro w hw
  have hlength := hw.length_le
  have hcount : w.count '\n' ≤ w.length := List.count_le_length
  have hlast : (lastLine w).length ≤ w.length :=
    (List.rtakeWhile_suffix (fun c => decide (c ≠ '\n')) w).length_le
  rw [Place.after_start]
  constructor <;> simp only [Place.ofLexeme, List.append_nil, List.not_mem_nil, if_false] <;> omega

end Text

/-! ### Lines -/

namespace Text

theorem splitOn_getElem?_zero (cs : List Char) :
    (cs.splitOn '\n')[0]? = some (cs.takeWhile (· ≠ '\n')) := by
  induction cs with
  | nil => rfl
  | cons c cs ih =>
    rw [List.splitOn_cons_eq_if_modifyHead]
    by_cases h : c = '\n' <;> simp_all

theorem splitOn_append_getElem? (before rest : List Char) :
    ((before ++ rest).splitOn '\n')[before.count '\n']? =
      some (lastLine before ++ rest.takeWhile (· ≠ '\n')) := by
  induction before with
  | nil => exact splitOn_getElem?_zero rest
  | cons c before ih =>
    rw [List.cons_append, List.splitOn_cons_eq_if_modifyHead]
    by_cases hc : c = '\n'
    · rw [hc, if_pos (by simp), List.count_cons_self, List.getElem?_cons_succ, ih,
        lastLine_cons_newline]
    · rw [if_neg (by simpa using hc), List.count_cons_of_ne hc, List.getElem?_modifyHead]
      by_cases h : '\n' ∈ before
      · have hcount := List.count_pos_iff.2 h
        have hlast : lastLine (c :: before) = lastLine before := lastLine_append_of_mem h [c]
        rw [if_neg (by omega), ih, hlast]
      · have hcons : '\n' ∉ c :: before := by simp [h, Ne.symm hc]
        rw [List.count_eq_zero_of_not_mem h, lastLine_of_not_mem h] at ih
        rw [List.count_eq_zero_of_not_mem h, lastLine_of_not_mem hcons, if_pos rfl, ih]
        rfl

/-- The line with the number of the place behind `before` consists of the characters around that
place, up to the newlines on both sides. -/
theorem line?_append (before rest : List Char) :
    line? (before ++ rest) (1 + before.count '\n') =
      some (chomp (lastLine before ++ rest.takeWhile (· ≠ '\n'))) := by
  rw [line?, if_neg (by omega), Nat.add_sub_cancel_left, splitOn_append_getElem?]
  rfl

theorem chomp_isPrefix (cs : List Char) : chomp cs <+: cs := by
  unfold chomp
  split
  · exact List.dropLast_prefix cs
  · exact List.prefix_refl cs

/-- Only a carriage return at the end of a line is dropped. -/
theorem prefix_chomp {w : List Char} {c : Char} (hc : c ≠ '\r') (rest : List Char) :
    w ++ [c] <+: chomp (w ++ [c] ++ rest) := by
  unfold chomp
  split
  · next hlast =>
    rcases List.eq_nil_or_concat rest with rfl | ⟨rest, d, rfl⟩
    · rw [List.append_nil, List.getLast?_concat] at hlast
      exact absurd (Option.some.inj hlast) hc
    · rw [List.concat_eq_append, ← List.append_assoc, List.dropLast_concat]
      exact List.prefix_append _ _
  · exact List.prefix_append _ _

/-- The line on which a lexeme is placed goes on behind it up to the next newline. -/
theorem line?_line_ofLexeme (before w rest : List Char) :
    line? (before ++ w ++ rest) (Place.ofLexeme before w).line =
      some (chomp (lastLine (before ++ w) ++ rest.takeWhile (· ≠ '\n'))) :=
  line?_append (before ++ w) rest

/-- A lexeme `v ++ [c] ++ u` without a newline is found in its line, from its column on, at least up
to the character `c`.  (A carriage return at its end might be dropped from the line.) -/
theorem line?_ofLexeme_of_not_mem {v u : List Char} {c : Char} (h : '\n' ∉ v ++ [c] ++ u)
    (hr : c ≠ '\r') (before rest : List Char) : ∃ text,
      line? (before ++ (v ++ [c] ++ u) ++ rest) (Place.ofLexeme before (v ++ [c] ++ u)).line =
          some text ∧
        v ++ [c] <+: text.drop ((Place.ofLexeme before (v ++ [c] ++ u)).column - 1) := by
  refine ⟨_, line?_line_ofLexeme before (v ++ [c] ++ u) rest, ?_⟩
  have hcolumn :
      (Place.ofLexeme before (v ++ [c] ++ u)).column - 1 = (lastLine before).length := by
    simp only [Place.ofLexeme, if_neg h]
    omega
  have hline : lastLine before ++ (v ++ [c] ++ u) ++ rest.takeWhile (· ≠ '\n') =
      lastLine before ++ v ++ [c] ++ (u ++ rest.takeWhile (· ≠ '\n')) := by simp
  rw [lastLine_append_of_not_mem h, hcolumn, hline]
  obtain ⟨rest', hrest⟩ :=
    prefix_chomp (w := lastLine before ++ v) hr (u ++ rest.takeWhile (· ≠ '\n'))
  rw [← hrest, List.append_assoc, List.append_assoc, List.drop_left, ← List.append_assoc]
  exact List.prefix_append _ _

/-- From the column of a lexeme on, its line begins with the lexeme, or with its own last line if it
has several. -/
theorem line?_ofLexeme {w : List Char} {c : Char} (hc : c ≠ '\n') (hr : c ≠ '\r')
    (before rest : List Char) : ∃ text,
      line? (before ++ (w ++ [c]) ++ rest) (Place.ofLexeme before (w ++ [c])).line = some text ∧
        lastLine (w ++ [c]) <+: text.drop ((Place.ofLexeme before (w ++ [c])).column - 1) := by
  by_cases h : '\n' ∈ w ++ [c]
  · refine ⟨_, line?_line_ofLexeme before (w ++ [c]) rest, ?_⟩
    have hlast : lastLine (w ++ [c]) = lastLine w ++ [c] := by rw [lastLine_concat, if_neg hc]
    rw [lastLine_append_of_mem h, Place.ofLexeme, if_pos h, hlast]
    exact prefix_chomp hr _
  · have key := line?_ofLexeme_of_not_mem (u := []) (by simpa using h) hr before rest
    rw [List.append_nil] at key
    rwa [lastLine_of_not_mem h]

/-- At the end of the text nothing is left of the last line. -/
theorem line?_ofLexeme_nil (cs : List Char) : ∃ text,
    line? cs (Place.ofLexeme cs []).line = some text ∧
      text.length ≤ (Place.ofLexeme cs []).column - 1 := by
  have hline := line?_append cs []
  rw [List.append_nil, List.takeWhile_nil, List.append_nil] at hline
  refine ⟨chomp (lastLine cs), by simpa [Place.ofLexeme] using hline, ?_⟩
  have := (chomp_isPrefix (lastLine cs)).length_le
  simp only [Place.ofLexeme, List.not_mem_nil, if_false]
  omega

end Text

end Lox
