import Lox.Tree.Outline

/-!
# Bracketed words

An outline is made of words and of nodes, which put a head and parts in parentheses
(`Expr.text_bracketed`, `Stmt.text_bracketed`).  The key fact: the text of words and nodes can be
taken apart in one way only, as long as no word has a blank, a parenthesis or a line break in it
(`Bracketed.text_append_inj`, `Bracketed.lines_inj`).
-/

namespace Lox

inductive Bracketed
  | word (w : String)
  | node (head : String) (parts : List Bracketed)

namespace Bracketed

mutual

def text : Bracketed → List Char
  | word w => w.toList
  | node head parts => '(' :: (head.toList ++ row ' ' parts ++ [')'])

/-- The texts one behind the other, with the separator in front of each. -/
def row (sep : Char) : List Bracketed → List Char
  | [] => []
  | b :: bs => sep :: (b.text ++ row sep bs)

end

/-- What may follow a word. -/
def stops : List Char :=
  [' ', ')', '\n']

theorem mem_stops {c : Char} : c ∈ stops ↔ c = ' ' ∨ c = ')' ∨ c = '\n' := by
  simp [stops]

/-- The word has nothing in it that belongs to the outline around it. -/
def IsWord (w : String) : Prop :=
  ∀ c ∈ w.toList, c ≠ '(' ∧ c ∉ stops

instance (w : String) : Decidable (IsWord w) :=
  List.decidableBAll _ w.toList

mutual

/-- All words and all heads are words. -/
def Clear : Bracketed → Prop
  | word w => IsWord w
  | node head parts => IsWord head ∧ AllClear parts

def AllClear : List Bracketed → Prop
  | [] => True
  | b :: bs => b.Clear ∧ AllClear bs

end

/-! ### Taking a text apart -/

/-- The text does not go on with a word or a node. -/
def Stops (r : List Char) : Prop :=
  ∀ c ∈ r.head?, c ∈ stops

theorem stops_nil : Stops [] := by
  simp [Stops]

theorem stops_cons {c : Char} (hc : c ∈ stops) (r : List Char) : Stops (c :: r) := by
  simpa [Stops] using hc

theorem stops_row {sep : Char} (hsep : sep ∈ stops) (bs : List Bracketed) {r : List Char}
    (hr : Stops r) : Stops (row sep bs ++ r) := by
  cases bs with
  | nil => rwa [row, List.nil_append]
  | cons b bs =>
    rw [row, List.cons_append]
    exact stops_cons hsep _

/-- A text ends where the first stop is. -/
theorem append_inj_of_not_mem_stops {v w r s : List Char} (hv : ∀ c ∈ v, c ∉ stops)
    (hw : ∀ c ∈ w, c ∉ stops) (hr : Stops r) (hs : Stops s) (h : v ++ r = w ++ s) :
    v = w ∧ r = s := by
  induction v generalizing w with
  | nil =>
    cases w with
    | nil => exact ⟨rfl, h⟩
    | cons c w =>
      rw [List.nil_append] at h
      exact absurd (hr c (by rw [h]; rfl)) (hw c (by simp))
  | cons d v ih =>
    cases w with
    | nil =>
      rw [List.nil_append] at h
      exact absurd (hs d (by rw [← h]; rfl)) (hv d (by simp))
    | cons c w =>
      rw [List.cons_append, List.cons_append, List.cons.injEq] at h
      obtain ⟨rfl, h⟩ := h
      obtain ⟨rfl, rfl⟩ := ih (List.forall_mem_cons.1 hv).2 (List.forall_mem_cons.1 hw).2 h
      exact ⟨rfl, rfl⟩

theorem IsWord.append_inj {v w : String} (hv : IsWord v) (hw : IsWord w) {r s : List Char}
    (hr : Stops r) (hs : Stops s) (h : v.toList ++ r = w.toList ++ s) : v = w ∧ r = s := by
  obtain ⟨hvw, hrs⟩ :=
    append_inj_of_not_mem_stops (fun c hc => (hv c hc).2) (fun c hc => (hw c hc).2) hr hs h
  exact ⟨String.toList_injective hvw, hrs⟩

/-- A word does not begin like a node. -/
theorem IsWord.append_ne {w : String} (hw : IsWord w) {r : List Char} (hr : Stops r)
    (s : List Char) : w.toList ++ r ≠ '(' :: s := by
  intro h
  cases hwl : w.toList with
  | nil =>
    rw [hwl, List.nil_append] at h
    exact absurd (hr '(' (by rw [h]; rfl)) (by decide)
  | cons c v =>
    rw [hwl, List.cons_append, List.cons.injEq] at h
    exact (hw c (by rw [hwl]; simp)).1 h.1

mutual

theorem text_append_inj : ∀ {b b' : Bracketed} {r s : List Char}, b.Clear → b'.Clear →
    Stops r → Stops s → b.text ++ r = b'.text ++ s → b = b' ∧ r = s
  | word v, word w, r, s, hv, hw, hr, hs, h => by
    obtain ⟨rfl, rfl⟩ := IsWord.append_inj hv hw hr hs h
    exact ⟨rfl, rfl⟩
  | word v, node _ _, r, s, hv, _, hr, _, h => absurd h (IsWord.append_ne hv hr _)
  | node _ _, word w, r, s, _, hw, _, hs, h => absurd h.symm (IsWord.append_ne hw hs _)
  | node head parts, node head' parts', r, s, hb, hb', hr, hs, h => by
    have hclose (r : List Char) : Stops (')' :: r) := stops_cons (by decide) r
    have hrow (bs : List Bracketed) (r : List Char) : Stops (row ' ' bs ++ ')' :: r) :=
      stops_row (by decide) bs (hclose r)
    simp only [text, List.cons_append, List.append_assoc, List.cons.injEq, true_and,
      List.nil_append] at h
    obtain ⟨rfl, hparts⟩ := hb.1.append_inj hb'.1 (hrow parts r) (hrow parts' s) h
    obtain ⟨rfl, hrest⟩ := row_append_inj hb.2 hb'.2 (by decide) (hclose r) (hclose s) (by simp)
      (by simp) hparts
    exact ⟨rfl, (List.cons.inj hrest).2⟩

theorem row_append_inj : ∀ {bs bs' : List Bracketed} {sep : Char} {r s : List Char},
    AllClear bs → AllClear bs' → sep ∈ stops → Stops r → Stops s → r.head? ≠ some sep →
    s.head? ≠ some sep → row sep bs ++ r = row sep bs' ++ s → bs = bs' ∧ r = s
  | [], [], _, _, _, _, _, _, _, _, _, _, h => ⟨rfl, h⟩
  | [], _ :: _, sep, r, s, _, _, _, _, _, hr, _, h => by
    simp only [row, List.nil_append, List.cons_append] at h
    exact absurd (by rw [h]; rfl) hr
  | _ :: _, [], sep, r, s, _, _, _, _, _, _, hs, h => by
    simp only [row, List.nil_append, List.cons_append] at h
    exact absurd (by rw [← h]; rfl) hs
  | b :: bs, b' :: bs', sep, r, s, hb, hb', hsep, hr, hs, hr', hs', h => by
    simp only [row, List.cons_append, List.append_assoc, List.cons.injEq, true_and] at h
    obtain ⟨rfl, hrest⟩ :=
      text_append_inj hb.1 hb'.1 (stops_row hsep bs hr) (stops_row hsep bs' hs) h
    obtain ⟨rfl, rfl⟩ := row_append_inj hb.2 hb'.2 hsep hr hs hr' hs' hrest
    exact ⟨rfl, rfl⟩

end

theorem text_inj {b b' : Bracketed} (hb : b.Clear) (hb' : b'.Clear) (h : b.text = b'.text) :
    b = b' :=
  (text_append_inj hb hb' stops_nil stops_nil (congrArg (· ++ []) h)).1

/-! ### Lines -/

/-- A line for each. -/
def lines (bs : List Bracketed) : List Char :=
  ['\n'].intercalate (bs.map text)

theorem cons_lines {bs : List Bracketed} (h : bs ≠ []) : '\n' :: lines bs = row '\n' bs := by
  induction bs with
  | nil => exact absurd rfl h
  | cons b bs ih =>
    cases bs with
    | nil => simp [lines, row]
    | cons b' bs =>
      rw [row, ← ih (List.cons_ne_nil _ _), lines, List.map_cons, List.map_cons,
        List.intercalate_cons_cons, List.append_assoc, ← List.map_cons]
      rfl

theorem lines_inj {bs bs' : List Bracketed} (hb : AllClear bs) (hb' : AllClear bs')
    (hne : ∀ b ∈ bs, b.text ≠ []) (hne' : ∀ b ∈ bs', b.text ≠ []) (h : lines bs = lines bs') :
    bs = bs' := by
  have hnil {bs : List Bracketed} (hne : ∀ b ∈ bs, b.text ≠ []) (h : lines bs = []) : bs = [] := by
    cases bs with
    | nil => rfl
    | cons b bs =>
      have hrow := cons_lines (List.cons_ne_nil b bs)
      rw [h, row, List.cons.injEq] at hrow
      exact absurd (List.append_eq_nil_iff.1 hrow.2.symm).1 (hne b (by simp))
  by_cases hbs : bs = []
  · subst hbs
    exact (hnil hne' h.symm).symm
  · have hbs' : bs' ≠ [] := by
      rintro rfl
      exact hbs (hnil hne h)
    have hrows : row '\n' bs ++ [] = row '\n' bs' ++ [] := by
      rw [← cons_lines hbs, ← cons_lines hbs', h]
    exact (row_append_inj hb hb' (by decide) stops_nil stops_nil (by simp) (by simp) hrows).1

end Bracketed

/-! ### Outlines -/

open Bracketed

def Expr.bracketed : Expr → Bracketed
  | literal value => .word value.text
  | grouping inner => .node "group" [inner.bracketed]
  | unary operator operand => .node operator.lexeme [operand.bracketed]
  | binary left operator right => .node operator.lexeme [left.bracketed, right.bracketed]
  | var name => .word name.lexeme
  | assign name value => .node "=" [.word name.lexeme, value.bracketed]

theorem toList_parenthesize (head : String) (parts : List String) :
    (parenthesize head parts).toList =
      '(' :: (head.toList ++ parts.flatMap (' ' :: ·.toList) ++ [')']) := by
  simp [parenthesize, List.flatMap_map]

theorem Expr.text_bracketed (e : Expr) : e.bracketed.text = e.outline.toList := by
  induction e with
  | literal | var => rfl
  | grouping _ ih => simp [bracketed, outline, text, row, toList_parenthesize, ih]
  | unary _ _ ih => simp [bracketed, outline, text, row, toList_parenthesize, ih]
  | binary _ _ _ ihl ihr => simp [bracketed, outline, text, row, toList_parenthesize, ihl, ihr]
  | assign _ _ ih => simp [bracketed, outline, text, row, toList_parenthesize, ih]

namespace Stmt

mutual

def bracketed : Stmt → Bracketed
  | expression expr => .node ";" [expr.bracketed]
  | print expr => .node "print" [expr.bracketed]
  | varDecl name none => .node "var" [.word name.lexeme]
  | varDecl name (some value) => .node "var" [.word name.lexeme, .word "=", value.bracketed]
  | block body => .node "block" (allBracketed body)

def allBracketed : List Stmt → List Bracketed
  | [] => []
  | s :: ss => s.bracketed :: allBracketed ss

end

mutual

theorem text_bracketed : ∀ s : Stmt, s.bracketed.text = s.outline.toList
  | expression e => by simp [bracketed, outline, text, row, toList_parenthesize, e.text_bracketed]
  | print e => by simp [bracketed, outline, text, row, toList_parenthesize, e.text_bracketed]
  | varDecl _ none => by simp [bracketed, outline, text, row, toList_parenthesize]
  | varDecl _ (some e) => by
    simp [bracketed, outline, text, row, toList_parenthesize, e.text_bracketed]
  | block body => by
    rw [bracketed, outline, text, toList_parenthesize, row_allBracketed ' ' body]

theorem row_allBracketed (sep : Char) : ∀ ss : List Stmt,
    row sep (allBracketed ss) = (outlines ss).flatMap (sep :: ·.toList)
  | [] => rfl
  | s :: ss => by
    simp [allBracketed, outlines, row, s.text_bracketed, row_allBracketed sep ss]

end

theorem map_text_allBracketed (ss : List Stmt) :
    (allBracketed ss).map text = (outlines ss).map String.toList := by
  induction ss with
  | nil => rfl
  | cons s ss ih => rw [allBracketed, outlines, List.map_cons, List.map_cons, ih, s.text_bracketed]

theorem lines_allBracketed (ss : List Stmt) :
    lines (allBracketed ss) = (outlineProgram ss).toList := by
  rw [lines, map_text_allBracketed, outlineProgram, String.toList_intercalate]
  rfl

theorem text_ne_nil {ss : List Stmt} : ∀ b ∈ allBracketed ss, b.text ≠ [] := by
  induction ss with
  | nil => simp [allBracketed]
  | cons s ss ih =>
    rw [allBracketed, List.forall_mem_cons]
    refine ⟨?_, ih⟩
    cases s with
    | varDecl name value => cases value <;> simp [bracketed, text]
    | _ => simp [bracketed, text]

end Stmt

end Lox
