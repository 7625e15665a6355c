import Lox.Proofs.Pointers

/-!
# Carets

A snippet ends with a bar, the source line without the white space at its ends, and a caret below
it.  The key fact: the caret stands below the character that has the number of the column, or below
the first one that is shown if the column lies in the indentation (`Diagnostic.snippet_caret`).  A
stray character may itself be white space at an end of its line; then it is not shown, and the caret
is not below it (`Diagnostic.above_caret_iff`).
-/

namespace Lox

namespace Text

/-! ### Lines -/

theorem newline_not_mem_of_mem_splitOn {cs w : List Char} (h : w ∈ cs.splitOn '\n') :
    '\n' ∉ w := by
  induction cs generalizing w with
  | nil =>
    rw [List.splitOn_nil, List.mem_singleton] at h
    simp [h]
  | cons c cs ih =>
    rw [List.splitOn_cons_eq_if_modifyHead] at h
    split at h
    · rcases List.mem_cons.1 h with rfl | h
      · exact List.not_mem_nil
      · exact ih h
    · next hc =>
      obtain ⟨l, ls, hls⟩ := List.exists_cons_of_ne_nil (List.splitOn_ne_nil '\n' cs)
      rw [hls, List.modifyHead_cons] at h
      rcases List.mem_cons.1 h with rfl | h
      · have hl : '\n' ∉ l := ih (hls ▸ List.mem_cons_self ..)
        simpa [hl] using Ne.symm (by simpa using hc : c ≠ '\n')
      · exact ih (hls ▸ List.mem_cons_of_mem l h)

theorem newline_not_mem_of_line? {cs text : List Char} {n : Nat} (h : line? cs n = some text) :
    '\n' ∉ text := by
  unfold line? at h
  split at h
  · cases h
  · obtain ⟨w, hw, rfl⟩ := Option.map_eq_some_iff.1 h
    have hmem := newline_not_mem_of_mem_splitOn (List.mem_of_getElem? hw)
    exact fun hn => hmem ((chomp_isPrefix w).subset hn)

/-- Lines that are each ended by a newline are found again by splitting, and behind the last one
there is nothing. -/
theorem splitOn_join (ls : List String) :
    (String.join (ls.map (· ++ "\n"))).toList.splitOn '\n' =
      ls.flatMap (fun l => l.toList.splitOn '\n') ++ [[]] := by
  induction ls with
  | nil => simp
  | cons l ls ih =>
    have hjoin : (String.join ((l :: ls).map (· ++ "\n"))).toList =
        l.toList ++ '\n' :: (String.join (ls.map (· ++ "\n"))).toList := by simp
    rw [hjoin, List.splitOn_append_cons_self, ih, List.flatMap_cons, List.append_assoc]

/-! ### Trimmed texts -/

private theorem trim_eq (cs : List Char) :
    trim cs = (cs.dropWhile isWhiteSpace).rdropWhile isWhiteSpace :=
  rfl

theorem exists_trim (cs : List Char) : ∃ lead trail,
    cs = lead ++ trim cs ++ trail ∧ lead.length = indent cs ∧
      (∀ c ∈ lead, isWhiteSpace c = true) ∧ ∀ c ∈ trail, isWhiteSpace c = true := by
  refine ⟨cs.takeWhile isWhiteSpace, (cs.dropWhile isWhiteSpace).rtakeWhile isWhiteSpace, ?_, rfl,
    fun c hc => List.mem_takeWhile_imp hc, fun c hc => List.mem_rtakeWhile_imp hc⟩
  rw [trim_eq, List.append_assoc, List.rdropWhile_append_rtakeWhile,
    List.takeWhile_append_dropWhile]

/-- What is left of a text begins and ends with characters that can be seen. -/
theorem exists_visible_of_trim {cs : List Char} (h : trim cs ≠ []) :
    (∃ c w, trim cs = c :: w ∧ isWhiteSpace c = false) ∧
      ∃ w c, trim cs = w ++ [c] ∧ isWhiteSpace c = false := by
  constructor
  · obtain ⟨c, w, hw⟩ := List.exists_cons_of_ne_nil h
    refine ⟨c, w, hw, ?_⟩
    obtain ⟨rest, hrest⟩ := List.rdropWhile_prefix isWhiteSpace (cs.dropWhile isWhiteSpace)
    rw [← trim_eq, hw, List.cons_append] at hrest
    have hhead := List.head_dropWhile_not (p := isWhiteSpace) (l := cs) (by simp [← hrest])
    simpa [← hrest] using hhead
  · refine ⟨(trim cs).dropLast, (trim cs).getLast h, (List.dropLast_append_getLast h).symm, ?_⟩
    have hlast : ¬isWhiteSpace ((trim cs).getLast h) = true := List.rdropWhile_last_not _ _ h
    simpa using hlast

theorem getElem?_trim {cs : List Char} {i : Nat} (h : indent cs ≤ i)
    (hi : i < indent cs + (trim cs).length) : (trim cs)[i - indent cs]? = cs[i]? := by
  obtain ⟨lead, trail, hcs, hlead, -⟩ := exists_trim cs
  rw [← hlead] at h hi ⊢
  conv => rhs; rw [hcs]
  rw [List.getElem?_append_left (by rw [List.length_append]; omega), List.getElem?_append_right h]

private theorem not_mem_of_visible {v : Char} (hv : isWhiteSpace v = false) {w : List Char}
    (hw : ∀ c ∈ w, isWhiteSpace c = true) : v ∉ w := by
  intro hmem
  rw [hw v hmem] at hv
  cases hv

theorem trim_ne_nil_of_mem {cs : List Char} {v : Char} (h : v ∈ cs)
    (hv : isWhiteSpace v = false) : trim cs ≠ [] := by
  intro hnil
  obtain ⟨lead, trail, hcs, -, hl, ht⟩ := exists_trim cs
  rw [hcs, hnil, List.append_nil, List.mem_append] at h
  exact h.elim (not_mem_of_visible hv hl) (not_mem_of_visible hv ht)

/-- Among the first characters one can be seen if they go beyond the indentation. -/
theorem exists_visible_take_iff {cs : List Char} {n : Nat} :
    (∃ v ∈ cs.take n, isWhiteSpace v = false) ↔ trim cs ≠ [] ∧ indent cs < n := by
  obtain ⟨lead, trail, hcs, hlead, hl, -⟩ := exists_trim cs
  rw [← hlead]
  constructor
  · rintro ⟨v, hv, hvisible⟩
    refine ⟨trim_ne_nil_of_mem (List.mem_of_mem_take hv) hvisible, ?_⟩
    by_contra hn
    rw [hcs, List.append_assoc, List.take_append_of_le_length (Nat.not_lt.1 hn)] at hv
    exact not_mem_of_visible hvisible hl (List.mem_of_mem_take hv)
  · rintro ⟨hne, hn⟩
    obtain ⟨⟨c, w, hw, hc⟩, -⟩ := exists_visible_of_trim hne
    obtain ⟨k, hk⟩ := Nat.exists_eq_add_of_lt hn
    refine ⟨c, ?_, hc⟩
    rw [hcs, hw, hk, List.append_assoc, Nat.add_assoc, List.take_length_add_append]
    simp

/-- Among the last characters one can be seen if they are more than the white space at the end. -/
theorem exists_visible_drop_iff {cs : List Char} {n : Nat} :
    (∃ v ∈ cs.drop n, isWhiteSpace v = false) ↔
      trim cs ≠ [] ∧ n < indent cs + (trim cs).length := by
  obtain ⟨lead, trail, hcs, hlead, -, ht⟩ := exists_trim cs
  rw [← hlead]
  constructor
  · rintro ⟨v, hv, hvisible⟩
    refine ⟨trim_ne_nil_of_mem (List.mem_of_mem_drop hv) hvisible, ?_⟩
    by_contra hn
    rw [hcs, List.drop_append, List.drop_eq_nil_of_le (by rw [List.length_append]; omega),
      List.nil_append] at hv
    exact not_mem_of_visible hvisible ht (List.mem_of_mem_drop hv)
  · rintro ⟨hne, hn⟩
    obtain ⟨-, w, c, hw, hc⟩ := exists_visible_of_trim hne
    rw [hw, List.length_append, List.length_singleton] at hn
    have hlen : n ≤ (lead ++ w).length := by
      rw [List.length_append]
      omega
    refine ⟨c, ?_, hc⟩
    rw [hcs, hw, ← List.append_assoc, List.append_assoc (lead ++ w),
      List.drop_append_of_le_length hlen]
    simp

/-- In the trimmed text the character `c` is still in its place, less the indentation, if it is not
part of the white space at the ends. -/
theorem getElem?_trim_eq_some_iff {cs : List Char} {i : Nat} {c : Char} (h : cs[i]? = some c) :
    (trim cs)[i - indent cs]? = some c ↔
      (∃ v ∈ cs.take (i + 1), isWhiteSpace v = false) ∧
        ∃ v ∈ cs.drop i, isWhiteSpace v = false := by
  rw [exists_visible_take_iff, exists_visible_drop_iff]
  constructor
  · intro hc
    have hne : trim cs ≠ [] := by
      intro hnil
      rw [hnil] at hc
      cases hc
    have hlt : i - indent cs < (trim cs).length := (List.getElem?_eq_some_iff.1 hc).1
    refine ⟨⟨hne, ?_⟩, hne, by omega⟩
    by_contra hi
    -- in the indentation `c` is white space, but what comes first in the trimmed text is not
    obtain ⟨⟨d, w, hw, hd⟩, -⟩ := exists_visible_of_trim hne
    obtain ⟨lead, trail, hcs, hlead, hl, -⟩ := exists_trim cs
    rw [Nat.sub_eq_zero_of_le (by omega), hw] at hc
    cases hc
    rw [hcs, List.append_assoc, List.getElem?_append_left (by omega)] at h
    exact not_mem_of_visible hd hl (List.mem_of_getElem? h)
  · rintro ⟨⟨-, hi⟩, -, hlt⟩
    rw [getElem?_trim (by omega) hlt, h]

end Text

/-! ### The lines of a snippet -/

/-- Where a character comes first, behind a text without it. -/
theorem idxOf?_append_cons {w : List Char} {c : Char} (h : c ∉ w) (rest : List Char) :
    (w ++ c :: rest).idxOf? c = some w.length := by
  rw [List.idxOf?_eq_some_iff]
  refine ⟨by simp, by simp, fun j hj hjc => h ?_⟩
  rw [List.getElem_append_left hj] at hjc
  exact hjc ▸ List.getElem_mem hj

theorem not_mem_toDigits {c : Char} (h : c.isDigit = false) (n : Nat) : c ∉ Nat.toDigits 10 n := by
  intro hc
  rw [Nat.isDigit_of_mem_toDigits (by decide) (by decide) hc] at h
  cases h

namespace Diagnostic

variable {d : Diagnostic} {source text : String} {column : UInt32}

/-- Where the bars of a snippet stand. -/
def bar (d : Diagnostic) : Nat :=
  (toString d.line).length + 1

theorem toList_toString_line (d : Diagnostic) :
    (toString d.line).toList = Nat.toDigits 10 d.line.toNat := by
  show (toString d.line.toNat).toList = _
  simp

theorem bar_eq (d : Diagnostic) : d.bar = (Nat.toDigits 10 d.line.toNat).length + 1 := by
  rw [bar, ← String.length_toList, toList_toString_line]

theorem toList_gutter (d : Diagnostic) : d.gutter.toList = List.replicate d.bar ' ' ++ ['|'] := by
  simp [gutter, bar]

theorem toList_numberedLine (d : Diagnostic) (text : String) :
    (d.numberedLine text).toList =
      Nat.toDigits 10 d.line.toNat ++ ' ' :: '|' :: ' ' :: Text.trim text.toList := by
  simp [numberedLine, toList_toString_line]

theorem toList_pointer (hline : sourceLine? source d.line = some text)
    (hcolumn : d.column = some column) :
    (d.pointer source).toList = List.replicate d.bar ' ' ++ '|' :: ' ' ::
      (List.replicate (column.toNat - 1 - Text.indent text.toList) '-' ++ ['^']) := by
  rw [pointer, hline, hcolumn]
  simp [toList_gutter, caret, Nat.sub_right_comm]

/-- The lines that a snippet ends with. -/
theorem splitOn_snippet (hline : sourceLine? source d.line = some text)
    (hcolumn : d.column = some column) : ∃ front, (d.snippet source).toList.splitOn '\n' =
      front ++ [d.gutter.toList, (d.numberedLine text).toList, (d.pointer source).toList, []] := by
  have hgutter : '\n' ∉ d.gutter.toList := by simp [toList_gutter]
  have hshown : '\n' ∉ (d.numberedLine text).toList := by
    obtain ⟨w, hw, rfl⟩ := Option.map_eq_some_iff.1 hline
    obtain ⟨lead, trail, hsplit, -⟩ := Text.exists_trim w
    have htext := Text.newline_not_mem_of_line? hw
    rw [hsplit, List.mem_append, List.mem_append, not_or, not_or] at htext
    have hnumber := not_mem_toDigits (c := '\n') (by decide) d.line.toNat
    simp [toList_numberedLine, hnumber, htext.1.2]
  have hpointer : '\n' ∉ (d.pointer source).toList := by simp [toList_pointer hline hcolumn]
  refine ⟨d.heading.toList.splitOn '\n' ++ d.headline.toList.splitOn '\n', ?_⟩
  rw [snippet, Text.splitOn_join, snippetLines, hline]
  simp [List.splitOn_eq_singleton hgutter, List.splitOn_eq_singleton hshown,
    List.splitOn_eq_singleton hpointer]

/-! ### Offsets -/

theorem idxOf?_bar_gutter (d : Diagnostic) : d.gutter.toList.idxOf? '|' = some d.bar := by
  rw [toList_gutter, idxOf?_append_cons (by simp), List.length_replicate]

theorem idxOf?_bar_numberedLine (d : Diagnostic) (text : String) :
    (d.numberedLine text).toList.idxOf? '|' = some d.bar := by
  have hsplit : (d.numberedLine text).toList =
      (Nat.toDigits 10 d.line.toNat ++ [' ']) ++ '|' :: ' ' :: Text.trim text.toList := by
    simp [toList_numberedLine]
  rw [hsplit, idxOf?_append_cons (by simp [not_mem_toDigits]), bar_eq]
  simp

theorem idxOf?_bar_pointer (hline : sourceLine? source d.line = some text)
    (hcolumn : d.column = some column) : (d.pointer source).toList.idxOf? '|' = some d.bar := by
  rw [toList_pointer hline hcolumn, idxOf?_append_cons (by simp), List.length_replicate]

theorem idxOf?_caret_pointer (hline : sourceLine? source d.line = some text)
    (hcolumn : d.column = some column) :
    (d.pointer source).toList.idxOf? '^' =
      some (d.bar + 2 + (column.toNat - 1 - Text.indent text.toList)) := by
  have hsplit : (d.pointer source).toList = (List.replicate d.bar ' ' ++ ['|', ' '] ++
      List.replicate (column.toNat - 1 - Text.indent text.toList) '-') ++ '^' :: [] := by
    simp [toList_pointer hline hcolumn]
  rw [hsplit, idxOf?_append_cons (by simp)]
  simp only [List.length_append, List.length_replicate, List.length_cons, List.length_nil]

/-- Behind the bar and a blank the source line is shown without its indentation. -/
theorem getElem?_numberedLine (d : Diagnostic) (text : String) (i : Nat) :
    (d.numberedLine text).toList[d.bar + 2 + i]? = (Text.trim text.toList)[i]? := by
  have hsplit : (d.numberedLine text).toList =
      (Nat.toDigits 10 d.line.toNat ++ [' ', '|', ' ']) ++ Text.trim text.toList := by
    simp [toList_numberedLine]
  have hlen : (Nat.toDigits 10 d.line.toNat ++ [' ', '|', ' ']).length = d.bar + 2 := by
    rw [bar_eq, List.length_append]
    rfl
  rw [hsplit, List.getElem?_append_right (by omega), hlen, Nat.add_sub_cancel_left]

/-- Of the last three lines of a snippet, the bars stand one below the other, whatever the number of
the line.  The second one is the number and the source line without the white space at its ends, in
which every character is moved to the left by the indentation.  In the third one the only caret
stands below the character with the number of the column, or where it would stand if the line is
shorter.  If the column lies in the indentation, it stands below the first character shown. -/
theorem snippet_caret (hline : sourceLine? source d.line = some text)
    (hcolumn : d.column = some column) :
    let indent := Text.indent text.toList
    ∃ front shown pointer bar,
      (d.snippet source).toList.splitOn '\n' =
        front ++ [d.gutter.toList, shown, pointer, []] ∧
      d.gutter.toList.idxOf? '|' = some bar ∧ shown.idxOf? '|' = some bar ∧
      pointer.idxOf? '|' = some bar ∧
      shown = (toString d.line ++ " | ").toList ++ Text.trim text.toList ∧
      (∀ i, indent ≤ i → i < indent + (Text.trim text.toList).length →
        shown[bar + 2 + (i - indent)]? = text.toList[i]?) ∧
      pointer.count '^' = 1 ∧
      (indent < column.toNat →
        pointer.idxOf? '^' = some (bar + 2 + (column.toNat - 1 - indent))) ∧
      (column.toNat ≤ indent → pointer.idxOf? '^' = some (bar + 2)) := by
  intro indent
  obtain ⟨front, hsplit⟩ := splitOn_snippet hline hcolumn
  have hcaret := idxOf?_caret_pointer hline hcolumn
  refine ⟨front, _, _, d.bar, hsplit, idxOf?_bar_gutter d, idxOf?_bar_numberedLine d text,
    idxOf?_bar_pointer hline hcolumn, by simp [numberedLine], fun i hi hlt => ?_, ?_,
    fun _ => hcaret, fun hle => ?_⟩
  · rw [getElem?_numberedLine, Text.getElem?_trim hi hlt]
  · rw [toList_pointer hline hcolumn]
    simp [List.count_replicate]
  · rw [hcaret, show column.toNat - 1 - Text.indent text.toList = 0 by omega]

/-- An error at the end of an indented second line. -/
theorem snippet_caret_print :
    let d : Diagnostic := ⟨.expectedToken ";" "Expect ';' after value.", 2, some 12, .atEnd⟩
    let source := "var a = 1;\n    print a"
    sourceLine? source d.line = some "    print a" ∧ d.column = some 12 ∧
      ∃ front pointer, (d.snippet source).toList.splitOn '\n' =
          front ++ ["  |".toList, "2 | print a".toList, pointer, []] ∧
        pointer.idxOf? '^' = some 11 := by
  intro d source
  have hline : sourceLine? source d.line = some "    print a" := by decide +kernel
  have hcolumn : d.column = some 12 := rfl
  obtain ⟨front, shown, pointer, bar, hsplit, hbar, -, -, rfl, -, -, hcaret, -⟩ :=
    snippet_caret hline hcolumn
  have hgutter : d.gutter = "  |" := by decide +kernel
  have hshown : (toString d.line ++ " | ").toList ++ Text.trim "    print a".toList =
      "2 | print a".toList := by decide +kernel
  rw [hgutter, hshown] at hsplit
  rw [hgutter] at hbar
  obtain rfl : 2 = bar := Option.some.inj (Eq.trans (by decide +kernel) hbar)
  exact ⟨hline, rfl, front, pointer, hsplit, hcaret (by decide +kernel)⟩

/-! ### Stray characters -/

/-- A stray character stands in its line in the column of its diagnostic. -/
theorem exists_getElem?_of_stray {c : Char} (hfits : Text.Fits source.toList)
    (hd : d ∈ (scan source).diagnostics) (hc : d.cause = .unexpectedCharacter c) :
    ∃ (column : UInt32) (i : Nat) (text : String), d.column = some column ∧
      column.toNat = i + 1 ∧ sourceLine? source d.line = some text ∧ text.toList[i]? = some c := by
  obtain ⟨column, text, hcolumn, hpos, hline, hfound, -⟩ := (found_of_mem_scan hd).pointer hfits
  rw [FoundIn, hc] at hfound
  obtain ⟨i, hi⟩ := Nat.exists_eq_add_one.2 (UInt32.le_iff_toNat_le.1 hpos)
  refine ⟨column, i, text, hcolumn, hi, hline, ?_⟩
  rw [hi] at hfound
  obtain ⟨rest, hrest⟩ := hfound
  have hget := congrArg (·[0]?) hrest
  simpa using hget.symm

/-- Below a stray character stands the caret of its snippet if and only if it is not part of the
white space at the ends of its line, that is, if something can be seen in the line up to it and
something from it on.  So this holds of every stray character that is no white space itself. -/
theorem above_caret_iff {c : Char} (hfits : Text.Fits source.toList)
    (hd : d ∈ (scan source).diagnostics) (hc : d.cause = .unexpectedCharacter c) :
    ∃ (column : UInt32) (i : Nat) (text : String) (front : List (List Char))
        (shown pointer : List Char) (caret : Nat),
      d.column = some column ∧ column.toNat = i + 1 ∧ sourceLine? source d.line = some text ∧
      text.toList[i]? = some c ∧
      (d.snippet source).toList.splitOn '\n' = front ++ [shown, pointer, []] ∧
      pointer.idxOf? '^' = some caret ∧
      (shown[caret]? = some c ↔
        (∃ v ∈ text.toList.take (i + 1), Text.isWhiteSpace v = false) ∧
          ∃ v ∈ text.toList.drop i, Text.isWhiteSpace v = false) ∧
      (Text.isWhiteSpace c = false → shown[caret]? = some c) := by
  obtain ⟨column, i, text, hcolumn, hi, hline, hget⟩ := exists_getElem?_of_stray hfits hd hc
  obtain ⟨front, hsplit⟩ := splitOn_snippet hline hcolumn
  have hcaret := idxOf?_caret_pointer hline hcolumn
  rw [hi, Nat.add_sub_cancel] at hcaret
  have key : (d.numberedLine text).toList[d.bar + 2 + (i - Text.indent text.toList)]? =
      some c ↔ (∃ v ∈ text.toList.take (i + 1), Text.isWhiteSpace v = false) ∧
        ∃ v ∈ text.toList.drop i, Text.isWhiteSpace v = false := by
    rw [getElem?_numberedLine, Text.getElem?_trim_eq_some_iff hget]
  refine ⟨column, i, text, front ++ [d.gutter.toList], _, _, _, hcolumn, hi, hline, hget, ?_,
    hcaret, key, fun hvisible => key.2 ⟨⟨c, ?_, hvisible⟩, c, ?_, hvisible⟩⟩
  · rw [hsplit, List.append_assoc]
    rfl
  · exact List.mem_of_getElem? (i := i) (by rw [List.getElem?_take_of_lt (by omega), hget])
  · exact List.mem_of_getElem? (i := 0) (by rw [List.getElem?_drop, Nat.add_zero, hget])

/-- A no-break space in the middle of a line. -/
theorem above_caret_iff_noBreakSpace :
    let d : Diagnostic := ⟨.unexpectedCharacter '\u00a0', 1, some 3, .unstated⟩
    let source := "\ta\u00a0;"
    Text.Fits source.toList ∧ d ∈ (scan source).diagnostics ∧ ∃ front shown pointer caret,
      (d.snippet source).toList.splitOn '\n' = front ++ [shown, pointer, []] ∧
        pointer.idxOf? '^' = some caret ∧ shown[caret]? = some '\u00a0' := by
  intro d source
  have hfits : Text.Fits source.toList := Text.fits_of_length_lt (by decide +kernel)
  have hd : d ∈ (scan source).diagnostics := by decide +kernel
  obtain ⟨column, i, text, front, shown, pointer, caret, hcolumn, hi, hline, -, hsplit, hcaret,
    habove, -⟩ := above_caret_iff hfits hd rfl
  obtain rfl : 3 = column := Option.some.inj hcolumn
  obtain rfl : 2 = i := Nat.succ.inj hi
  obtain rfl : source = text :=
    Option.some.inj (Eq.trans (Eq.symm (by decide +kernel)) hline)
  exact ⟨hfits, hd, front, shown, pointer, caret, hsplit, hcaret,
    habove.2 ⟨⟨'a', by decide +kernel, rfl⟩, ';', by decide +kernel, rfl⟩⟩

/-- A no-break space at the beginning of a line counts as indentation: the caret of its snippet
stands below the semicolon behind it. -/
theorem not_above_caret_noBreakSpace :
    ¬∀ (source : String) (d : Diagnostic) (c : Char) (front : List (List Char))
        (shown pointer : List Char) (caret : Nat),
      d ∈ (scan source).diagnostics → d.cause = .unexpectedCharacter c →
      (∀ column ∈ d.column, column ≤ 65535) →
      (d.snippet source).toList.splitOn '\n' = front ++ [shown, pointer, []] →
      pointer.idxOf? '^' = some caret → shown[caret]? = some c := by
  intro h
  let source := "\u00a0;"
  let d : Diagnostic := ⟨.unexpectedCharacter '\u00a0', 1, some 1, .unstated⟩
  have hscan : (scan source).diagnostics = [d] := by decide +kernel
  have hline : sourceLine? source d.line = some source := by decide +kernel
  have hcolumn : d.column = some 1 := rfl
  obtain ⟨front, hsplit⟩ := splitOn_snippet hline hcolumn
  have hcaret : (d.pointer source).toList.idxOf? '^' = some 4 := by decide +kernel
  have key := h source d '\u00a0' (front ++ [d.gutter.toList]) (d.numberedLine source).toList
    (d.pointer source).toList 4 (by simp [hscan]) rfl (by simp [hcolumn]) (by simp [hsplit]) hcaret
  revert key
  decide +kernel

end Diagnostic

end Lox
