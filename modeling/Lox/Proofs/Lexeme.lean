import Lox.Segment

/-!
# Lexemes

The lexical classes as languages: which rows of characters are blanks, comments, numerals, words,
strings and symbols, whatever stands around them.  The key facts: what is cut off in front of a text
is a lexeme, an unclosed string or a single character (`cut_cases`), and no lexeme that starts there
is longer, nor is another one of the same length (`Lexeme.fits`).
-/

namespace Lox

namespace Segment

/-! ### Classes of characters -/

def blanks : List Char :=
  [' ', '\t', '\r', '\n']

def IsDigit (c : Char) : Prop :=
  '0' ≤ c ∧ c ≤ '9'

def IsLetter (c : Char) : Prop :=
  ('A' ≤ c ∧ c ≤ 'Z' ∨ 'a' ≤ c ∧ c ≤ 'z') ∨ c = '_'

/-- The kinds of fixed tokens that are no words. -/
def symbols : List TokenKind :=
  [.notEquals, .equals, .lessEquals, .greaterEquals, .not, .assignment, .less, .greater,
   .openParen, .closeParen, .openCurly, .closeCurly, .comma, .dot, .dash, .plus, .semicolon,
   .slash, .star]

theorem isWhitespace_iff {c : Char} : c.isWhitespace = true ↔ c ∈ blanks := by
  simp [Char.isWhitespace, blanks, or_assoc]

theorem isDigit_iff {c : Char} : c.isDigit = true ↔ IsDigit c := by
  simp [Char.isDigit, IsDigit, Char.le_def]

theorem isWordStart_iff {c : Char} : isWordStart c = true ↔ IsLetter c := by
  have halpha : c.isAlpha =
      (decide ('A' ≤ c ∧ c ≤ 'Z') || (decide ('a' ≤ c) && decide (c ≤ 'z'))) := rfl
  simp [isWordStart, IsLetter, halpha]

theorem isWordPart_iff {c : Char} : isWordPart c = true ↔ IsLetter c ∨ IsDigit c := by
  rw [← isWordStart_iff, ← isDigit_iff]
  simp [isWordPart, isWordStart, Char.isAlphanum, or_right_comm]

/-! ### Lexemes -/

inductive Lexeme : Shape → List Char → Prop
  | blank {w} (hne : w ≠ []) (h : ∀ c ∈ w, c ∈ blanks) : Lexeme .blank w
  | comment {w} (h : '\n' ∉ w) : Lexeme .comment ('/' :: '/' :: w)
  | integer {w} (hne : w ≠ []) (h : ∀ c ∈ w, IsDigit c) : Lexeme .number w
  | decimal {w v} (hw : w ≠ []) (h : ∀ c ∈ w, IsDigit c) (hv : v ≠ []) (h' : ∀ c ∈ v, IsDigit c) :
      Lexeme .number (w ++ '.' :: v)
  | word {c w} (hc : IsLetter c) (h : ∀ d ∈ w, IsLetter d ∨ IsDigit d) : Lexeme .word (c :: w)
  | string {w} (h : '"' ∉ w) : Lexeme .string ('"' :: w ++ ['"'])
  | symbol {k} (h : k ∈ symbols) : Lexeme (.symbol k) k.text.toList

theorem Lexeme.ne_nil {shape : Shape} {w : List Char} (h : Lexeme shape w) : w ≠ [] := by
  have hsymbol : ∀ k ∈ symbols, k.text.toList ≠ [] := by decide
  cases h with
  | blank hne => exact hne
  | integer hne => exact hne
  | decimal => simp
  | symbol h => exact hsymbol _ h
  | comment | word | string => exact List.cons_ne_nil _ _

/-! ### Runs -/

theorem take_run (p : Char → Bool) (cs : List Char) : cs.take (run p cs) = cs.takeWhile p :=
  (List.prefix_iff_eq_take.1 (List.takeWhile_prefix p)).symm

theorem drop_run (p : Char → Bool) (cs : List Char) : cs.drop (run p cs) = cs.dropWhile p := by
  have h : (cs.takeWhile p ++ cs.dropWhile p).drop (run p cs) = cs.dropWhile p := List.drop_left
  rwa [List.takeWhile_append_dropWhile] at h

theorem of_mem_take_run {p : Char → Bool} {cs : List Char} {c : Char} (h : c ∈ cs.take (run p cs)) :
    p c = true := by
  rw [take_run] at h
  exact List.all_eq_true.1 List.all_takeWhile c h

theorem run_append {p : Char → Bool} {w : List Char} (h : ∀ c ∈ w, p c = true) (cs : List Char) :
    run p (w ++ cs) = w.length + run p cs := by
  unfold run
  rw [List.takeWhile_append_of_pos h, List.length_append]

theorem run_ne_append {d : Char} {w : List Char} (h : d ∉ w) (cs : List Char) :
    run (· ≠ d) (w ++ cs) = w.length + run (· ≠ d) cs := by
  apply run_append
  intro c hc
  rw [decide_eq_true_iff]
  rintro rfl
  exact h hc

theorem run_cons_of_neg {p : Char → Bool} {c : Char} (h : p c = false) (cs : List Char) :
    run p (c :: cs) = 0 := by
  simp [run, h]

/-- A run that ends before the text does is followed by a character outside. -/
theorem take_succ_run {p : Char → Bool} {cs : List Char} (h : run p cs < cs.length) :
    ∃ c, cs.take (run p cs + 1) = cs.take (run p cs) ++ [c] ∧ p c = false := by
  have hsplit := List.takeWhile_append_dropWhile (p := p) (l := cs)
  cases hdrop : cs.dropWhile p with
  | nil =>
    rw [hdrop, List.append_nil] at hsplit
    rw [run, hsplit] at h
    exact absurd h (Nat.lt_irrefl _)
  | cons c rest =>
    refine ⟨c, ?_, ?_⟩
    · rw [hdrop] at hsplit
      have htake : (cs.takeWhile p ++ c :: rest).take ((cs.takeWhile p).length + 1) = _ :=
        List.take_length_add_append 1
      rw [hsplit] at htake
      rw [take_run]
      exact htake
    · have hhead := List.head_dropWhile_not (p := p) (l := cs) (by simp [hdrop])
      simpa [hdrop] using hhead

theorem run_le_length (p : Char → Bool) (cs : List Char) : run p cs ≤ cs.length :=
  (List.takeWhile_prefix p).length_le

theorem run_le_numeralTail (cs : List Char) : run Char.isDigit cs ≤ numeralTail cs := by
  unfold numeralTail
  dsimp only
  split
  · split <;> omega
  · exact Nat.le_refl _

theorem numeralTail_decimal {w v : List Char} (hw : ∀ c ∈ w, c.isDigit = true)
    (hv : ∀ c ∈ v, c.isDigit = true) (hne : v ≠ []) (cs : List Char) :
    w.length + 1 + v.length ≤ numeralTail (w ++ '.' :: (v ++ cs)) := by
  have hwhole : run Char.isDigit (w ++ '.' :: (v ++ cs)) = w.length := by
    rw [run_append hw, run_cons_of_neg (by decide), Nat.add_zero]
  have hplaces : run Char.isDigit (v ++ cs) = v.length + run Char.isDigit cs := run_append hv cs
  have := List.length_pos_iff.2 hne
  unfold numeralTail
  simp only [hwhole, List.drop_left, hplaces]
  rw [if_neg (by omega)]
  omega

theorem numeralTail_le_length (cs : List Char) : numeralTail cs ≤ cs.length := by
  have hwhole := run_le_length Char.isDigit cs
  unfold numeralTail
  dsimp only
  split
  · next rest hpoint =>
    have hplaces := run_le_length Char.isDigit rest
    have hlen := congrArg List.length hpoint
    rw [List.length_drop, List.length_cons] at hlen
    split <;> omega
  · exact hwhole

/-! ### What is cut off -/

theorem cut_of_blank {c : Char} (h : c ∈ blanks) (cs : List Char) :
    cut c cs = (.blank, run Char.isWhitespace cs) := by
  rw [cut, if_pos (isWhitespace_iff.2 h)]

theorem cut_of_slashes (cs : List Char) :
    cut '/' ('/' :: cs) = (.comment, run (· ≠ '\n') cs + 1) := by
  have hrun : run (· ≠ '\n') (['/'] ++ cs) = 1 + run (· ≠ '\n') cs := run_ne_append (by decide) cs
  show (Shape.comment, run (· ≠ '\n') (['/'] ++ cs)) = _
  rw [hrun, Nat.add_comm]

private theorem ne_slash_and_not_mem_blanks {p : Char → Bool} {c : Char} (h : p c = true)
    (hp : ('/' :: blanks).all (!p ·) = true) : c ≠ '/' ∧ c ∉ blanks := by
  rw [← not_or, ← List.mem_cons]
  intro hc
  have hneg := List.all_eq_true.1 hp c hc
  rw [h] at hneg
  cases hneg

theorem cut_of_digit {c : Char} (h : IsDigit c) (cs : List Char) :
    cut c cs = (.number, numeralTail cs) := by
  rw [← isDigit_iff] at h
  obtain ⟨hslash, hblank⟩ := ne_slash_and_not_mem_blanks h (by decide)
  rw [cut, if_neg (by simp [isWhitespace_iff, hblank]), if_neg (by simp [hslash]), if_pos h]

theorem not_isDigit_of_isLetter {c : Char} (h : IsLetter c) : ¬IsDigit c := by
  rintro ⟨-, h9⟩
  have hdigit : '9'.val.toNat = 57 := rfl
  have hupper : 'A'.val.toNat = 65 := rfl
  have hlower : 'a'.val.toNat = 97 := rfl
  rcases h with (⟨hA, -⟩ | ⟨ha, -⟩) | rfl
  · rw [Char.le_def, UInt32.le_iff_toNat_le] at *
    omega
  · rw [Char.le_def, UInt32.le_iff_toNat_le] at *
    omega
  · exact absurd h9 (by decide)

theorem cut_of_letter {c : Char} (h : IsLetter c) (cs : List Char) :
    cut c cs = (.word, run isWordPart cs) := by
  have hd := not_isDigit_of_isLetter h
  rw [← isWordStart_iff] at h
  obtain ⟨hslash, hblank⟩ := ne_slash_and_not_mem_blanks h (by decide)
  rw [cut, if_neg (by simp [isWhitespace_iff, hblank]), if_neg (by simp [hslash]),
    if_neg (by simp [isDigit_iff, hd]), if_pos h]

theorem cut_of_quote (cs : List Char) :
    cut '"' cs = if run (· ≠ '"') cs < cs.length then (.string, run (· ≠ '"') cs + 1)
      else (.openString, run (· ≠ '"') cs) :=
  rfl

/-- The characters are the text of a symbol of the kind. -/
def spells (k : TokenKind) : List Char → Bool
  | [c] => symbolKind? c = some k
  | [c, d] => d = '=' && (symbolKind? c).bind withEquals? = some k
  | _ => false

theorem spells_text : ∀ k ∈ symbols, spells k k.text.toList = true := by
  decide

theorem cut_of_symbol {c : Char} {k : TokenKind} (h : symbolKind? c = some k) {cs : List Char}
    (hcs : c = '/' → cs.head? ≠ some '/') :
    cut c cs = match withEquals? k with
      | some longer => if cs.head? = some '=' then (.symbol longer, 1) else (.symbol k, 0)
      | none => (.symbol k, 0) := by
  by_cases hslash : c = '/'
  · subst hslash
    cases h
    rw [cut, if_neg (by decide), if_neg (by simp [hcs])]
    rfl
  · unfold symbolKind? at h
    split at h <;> cases h
    all_goals first
      | rfl
      | exact absurd rfl hslash

theorem cut_le_length (c : Char) (cs : List Char) : (cut c cs).2 ≤ cs.length := by
  unfold cut
  split
  · exact run_le_length _ cs
  split
  · exact run_le_length _ cs
  split
  · exact numeralTail_le_length cs
  split
  · exact run_le_length _ cs
  split
  · dsimp only
    split
    · next h => exact h
    · exact run_le_length _ cs
  split
  · exact Nat.zero_le _
  split
  · split
    · next h =>
      obtain ⟨rest, rfl⟩ := List.head?_eq_some_iff.1 h
      exact Nat.le_add_left 1 rest.length
    · exact Nat.zero_le _
  · exact Nat.zero_le _

theorem cut_of_open_quote {cs : List Char} (h : '"' ∉ cs) :
    cut '"' cs = (.openString, cs.length) := by
  have hrun : run (· ≠ '"') (cs ++ []) = cs.length + 0 := run_ne_append h []
  rw [List.append_nil, Nat.add_zero] at hrun
  rw [cut_of_quote, hrun, if_neg (Nat.lt_irrefl _)]

/-! ### Longest lexemes -/

/-- A lexeme is not longer than what is cut off, and the same if it is as long. -/
structure Fits (shape : Shape) (w : List Char) (cut : Shape × Nat) : Prop where
  ne_openString : cut.1 ≠ .openString
  ne_stray : cut.1 ≠ .stray
  length_le : w.length ≤ cut.2 + 1
  shape_eq : w.length = cut.2 + 1 → cut.1 = shape

private theorem fits_of_shape {shape : Shape} {w : List Char} {n : Nat} (hw : w.length ≤ n + 1)
    (ho : shape ≠ .openString) (hs : shape ≠ .stray) : Fits shape w (shape, n) :=
  ⟨ho, hs, hw, fun _ => rfl⟩

private theorem fits_symbol {k : TokenKind} {w : List Char} (h : spells k w = true) {c : Char}
    {cs : List Char} (hp : w <+: c :: cs) : Fits (.symbol k) w (cut c cs) := by
  unfold spells at h
  split at h
  · next d =>
    have hk : symbolKind? d = some k := by simpa using h
    obtain ⟨rfl, -⟩ := List.cons_prefix_cons.1 hp
    by_cases hslash : d = '/' ∧ cs.head? = some '/'
    · -- a slash gives way to a comment
      obtain ⟨rfl, hcs⟩ := hslash
      obtain ⟨cs, rfl⟩ := List.head?_eq_some_iff.1 hcs
      rw [cut_of_slashes]
      exact ⟨by simp, by simp, by simp, fun hlen => by simp at hlen⟩
    · rw [cut_of_symbol hk fun hc hcs => hslash ⟨hc, hcs⟩]
      split
      · split
        · exact ⟨by simp, by simp, by simp, fun hlen => by simp at hlen⟩
        · exact fits_of_shape (by simp) (by simp) (by simp)
      · exact fits_of_shape (by simp) (by simp) (by simp)
  · simp only [Bool.and_eq_true, decide_eq_true_eq] at h
    obtain ⟨rfl, hk⟩ := h
    obtain ⟨k', hk', hlonger⟩ := Option.bind_eq_some_iff.1 hk
    obtain ⟨rfl, rest, rfl⟩ := List.cons_prefix_cons.1 hp
    rw [cut_of_symbol hk' (by simp), hlonger]
    exact fits_of_shape (by simp) (by simp) (by simp)
  · cases h

/-- No lexeme is longer than what is cut off at the same place. -/
theorem Lexeme.fits {shape : Shape} {w : List Char} (h : Lexeme shape w) {c : Char}
    {cs : List Char} (hp : w <+: c :: cs) : Fits shape w (cut c cs) := by
  cases h with
  | blank hne h =>
    obtain ⟨d, w, rfl⟩ := List.exists_cons_of_ne_nil hne
    obtain ⟨rfl, rest, rfl⟩ := List.cons_prefix_cons.1 hp
    obtain ⟨hd, hw⟩ := List.forall_mem_cons.1 h
    have hrun := run_append (p := Char.isWhitespace) (fun c hc => isWhitespace_iff.2 (hw c hc)) rest
    rw [cut_of_blank hd]
    exact fits_of_shape (by simp [hrun]) (by simp) (by simp)
  | @comment w h =>
    obtain ⟨rfl, rest, rfl⟩ := List.cons_prefix_cons.1 hp
    have hrun := run_ne_append h rest
    rw [List.cons_append, cut_of_slashes, hrun]
    refine fits_of_shape ?_ (by simp) (by simp)
    rw [List.length_cons, List.length_cons]
    omega
  | integer hne h =>
    obtain ⟨d, w, rfl⟩ := List.exists_cons_of_ne_nil hne
    obtain ⟨rfl, rest, rfl⟩ := List.cons_prefix_cons.1 hp
    obtain ⟨hd, hw⟩ := List.forall_mem_cons.1 h
    have hrun := run_append (p := Char.isDigit) (fun c hc => isDigit_iff.2 (hw c hc)) rest
    have htail := run_le_numeralTail (w ++ rest)
    rw [cut_of_digit hd]
    refine fits_of_shape ?_ (by simp) (by simp)
    rw [List.length_cons]
    omega
  | @decimal w v hne h hv h' =>
    obtain ⟨d, w, rfl⟩ := List.exists_cons_of_ne_nil hne
    rw [List.cons_append] at hp
    obtain ⟨rfl, rest, rfl⟩ := List.cons_prefix_cons.1 hp
    obtain ⟨hd, hw⟩ := List.forall_mem_cons.1 h
    have htail := numeralTail_decimal (fun c hc => isDigit_iff.2 (hw c hc))
      (fun c hc => isDigit_iff.2 (h' c hc)) hv rest
    rw [cut_of_digit hd]
    refine fits_of_shape ?_ (by simp) (by simp)
    rw [List.append_assoc, List.cons_append]
    simp only [List.cons_append, List.length_cons, List.length_append]
    omega
  | @word d w hd h =>
    obtain ⟨rfl, rest, rfl⟩ := List.cons_prefix_cons.1 hp
    have hrun := run_append (p := isWordPart) (fun c hc => isWordPart_iff.2 (h c hc)) rest
    rw [cut_of_letter hd]
    exact fits_of_shape (by simp [hrun]) (by simp) (by simp)
  | @string w h =>
    rw [List.cons_append] at hp
    obtain ⟨rfl, rest, rfl⟩ := List.cons_prefix_cons.1 hp
    have hrun : run (· ≠ '"') (w ++ ['"'] ++ rest) = w.length := by
      rw [List.append_assoc, run_ne_append h]
      rfl
    rw [cut_of_quote, hrun, if_pos (by simp)]
    exact fits_of_shape (by simp) (by simp) (by simp)
  | symbol h => exact fits_symbol (spells_text _ h) hp

/-- A lexeme has one shape only: cut off by itself, it is cut off as a whole. -/
theorem Lexeme.shape_unique {shape shape' : Shape} {w : List Char} (h : Lexeme shape w)
    (h' : Lexeme shape' w) : shape = shape' := by
  obtain ⟨c, cs, rfl⟩ := List.exists_cons_of_ne_nil h.ne_nil
  have hfits := h.fits List.prefix_rfl
  have hlen : (c :: cs).length = (cut c cs).2 + 1 := by
    have hle := hfits.length_le
    have hcut := cut_le_length c cs
    rw [List.length_cons] at hle ⊢
    omega
  rw [← hfits.shape_eq hlen, (h'.fits List.prefix_rfl).shape_eq hlen]

/-! ### Lexemes that are cut off -/

theorem take_decimal {cs rest : List Char} (h : cs.drop (run Char.isDigit cs) = '.' :: rest) :
    cs.take (run Char.isDigit cs + 1 + run Char.isDigit rest) =
      cs.take (run Char.isDigit cs) ++ '.' :: rest.take (run Char.isDigit rest) := by
  rw [Nat.add_assoc, List.take_add, h, Nat.add_comm 1, List.take_succ_cons]

theorem lexeme_numeral {c : Char} (h : IsDigit c) (cs : List Char) :
    Lexeme .number (c :: cs.take (numeralTail cs)) := by
  have hrun : ∀ (cs : List Char), ∀ d ∈ cs.take (run Char.isDigit cs), IsDigit d :=
    fun cs d hd => isDigit_iff.1 (of_mem_take_run hd)
  have hwhole : ∀ d ∈ c :: cs.take (run Char.isDigit cs), IsDigit d :=
    List.forall_mem_cons.2 ⟨h, hrun cs⟩
  unfold numeralTail
  dsimp only
  split
  · next rest hpoint =>
    split
    · exact .integer (List.cons_ne_nil _ _) hwhole
    · next hplaces =>
      have hne : rest.take (run Char.isDigit rest) ≠ [] := by
        intro hnil
        rw [take_run] at hnil
        exact hplaces (by rw [run, hnil, List.length_nil])
      rw [take_decimal hpoint]
      exact .decimal (List.cons_ne_nil _ _) hwhole hne (hrun rest)
  · exact .integer (List.cons_ne_nil _ _) hwhole

theorem symbolKind?_eq_some {c : Char} {k : TokenKind} (h : symbolKind? c = some k) :
    k ∈ symbols ∧ k.text.toList = [c] := by
  unfold symbolKind? at h
  split at h <;> cases h <;> decide

theorem withEquals?_eq_some {k longer : TokenKind} (h : withEquals? k = some longer) :
    longer ∈ symbols ∧ longer.text.toList = k.text.toList ++ ['='] := by
  unfold withEquals? at h
  split at h <;> cases h <;> decide

theorem lexeme_comment (cs : List Char) :
    Lexeme .comment ('/' :: ('/' :: cs).take (run (· ≠ '\n') cs + 1)) := by
  rw [List.take_succ_cons]
  exact .comment fun h => by simpa using of_mem_take_run h

theorem lexeme_symbol {k : TokenKind} {w : List Char} (h : k ∈ symbols) (hw : k.text.toList = w) :
    Lexeme (.symbol k) w :=
  hw ▸ .symbol h

/-- A string is cut off at the next quote, and runs to the end if there is none. -/
theorem cut_quote_cases (cs : List Char) :
    Lexeme (cut '"' cs).1 ('"' :: cs.take (cut '"' cs).2) ∨
      ('"' ∉ cs ∧ cut '"' cs = (.openString, cs.length)) := by
  have hbody : '"' ∉ cs.take (run (· ≠ '"') cs) := fun h => by simpa using of_mem_take_run h
  rw [cut_of_quote]
  split
  · next hlt =>
    obtain ⟨d, hclosed, hd⟩ := take_succ_run hlt
    obtain rfl : d = '"' := by simpa using hd
    dsimp only
    rw [hclosed]
    exact .inl (.string hbody)
  · next hlt =>
    have hlen : run (· ≠ '"') cs = cs.length :=
      Nat.le_antisymm (run_le_length _ cs) (Nat.not_lt.1 hlt)
    rw [hlen, List.take_length] at hbody
    exact .inr ⟨hbody, by rw [hlen]⟩

/-- What is cut off: a lexeme, a string that is never closed, or a single character. -/
theorem cut_cases (c : Char) (cs : List Char) :
    Lexeme (cut c cs).1 (c :: cs.take (cut c cs).2) ∨
      (c = '"' ∧ '"' ∉ cs ∧ cut c cs = (.openString, cs.length)) ∨
      (c ≠ '"' ∧ cut c cs = (.stray, 0)) := by
  by_cases hquote : c = '"'
  · subst hquote
    exact (cut_quote_cases cs).imp_right fun h => .inl ⟨rfl, h⟩
  by_cases hblank : c ∈ blanks
  · rw [cut_of_blank hblank]
    refine .inl (.blank (List.cons_ne_nil _ _) (List.forall_mem_cons.2 ⟨hblank, ?_⟩))
    exact fun d hd => isWhitespace_iff.1 (of_mem_take_run hd)
  by_cases hdigit : IsDigit c
  · rw [cut_of_digit hdigit]
    exact .inl (lexeme_numeral hdigit cs)
  by_cases hletter : IsLetter c
  · rw [cut_of_letter hletter]
    exact .inl (.word hletter fun d hd => isWordPart_iff.1 (of_mem_take_run hd))
  by_cases hslash : c = '/' ∧ cs.head? = some '/'
  · obtain ⟨rfl, hcs⟩ := hslash
    obtain ⟨cs, rfl⟩ := List.head?_eq_some_iff.1 hcs
    rw [cut_of_slashes]
    exact .inl (lexeme_comment cs)
  cases hkind : symbolKind? c with
  | none =>
    refine .inr (.inr ⟨hquote, ?_⟩)
    rw [cut, if_neg (by simpa [isWhitespace_iff]), if_neg (by simpa using hslash),
      if_neg (by simpa [isDigit_iff]), if_neg (by simpa [isWordStart_iff]), if_neg hquote, hkind]
  | some k =>
    obtain ⟨hk, htext⟩ := symbolKind?_eq_some hkind
    rw [cut_of_symbol hkind fun hc hcs => hslash ⟨hc, hcs⟩]
    split
    · next longer hlonger =>
      obtain ⟨hk', htext'⟩ := withEquals?_eq_some hlonger
      rw [htext] at htext'
      split
      · next hcs =>
        obtain ⟨rest, rfl⟩ := List.head?_eq_some_iff.1 hcs
        exact .inl (lexeme_symbol hk' htext')
      · exact .inl (lexeme_symbol hk htext)
    · exact .inl (lexeme_symbol hk htext)

end Segment

end Lox
