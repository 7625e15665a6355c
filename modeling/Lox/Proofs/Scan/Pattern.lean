import Lox.Scan.Scanner
import Lox.Proofs.Lexeme

/-!
# The first pattern that matches

The patterns of the scanner's table overlap, and the order of the table decides.  The key fact: the
first pattern that matches is the one for the segment that stands in front of the text
(`Handler.choose?_cons`), so the order of the table finds the longest lexeme.
-/

namespace Lox

namespace Pattern

open Segment

theorem front?_both {first second : Pattern} {cs v : List Char} (h : first.front? cs = some v) :
    (both first second).front? cs = (second.front? (cs.drop v.length)).map (v ++ ·) := by
  simp only [front?, h, Option.bind_eq_bind, Option.bind_some]
  cases second.front? (cs.drop v.length) <;> rfl

theorem front?_both_one_many (p q : Char → Bool) (c : Char) (cs : List Char) :
    (both (one p) (many q)).front? (c :: cs) =
      if p c then some (c :: cs.take (run q cs)) else none := by
  by_cases h : p c <;> simp [front?, take_run, h]

theorem front?_row (p : Char → Bool) (cs : List Char) : (both (one p) (many p)).front? cs =
    if run p cs = 0 then none else some (cs.take (run p cs)) := by
  cases cs with
  | nil => rfl
  | cons c cs =>
    rw [front?_both_one_many]
    by_cases h : p c <;> simp [run, h]

end Pattern

namespace Handler

open Segment Pattern

/-- How a segment is chosen: the handler and what its pattern matches. -/
def ofSegment? (s : Segment) : Option (Handler × List Char) :=
  match s.shape with
  | .blank => some (.blank, s.text)
  | .comment => some (.comment, s.text)
  | .number => some (.number, s.text)
  | .word => some (.word, s.text)
  | .string | .openString => some (.string, ['"'])
  | .symbol kind => some (.symbol kind s.text, s.text)
  | .stray => none

theorem front?_comment (c : Char) (cs : List Char) :
    (both (text ['/', '/']) (many (· ≠ '\n'))).front? (c :: cs) =
      if c = '/' && cs.head? = some '/' then some (c :: cs.take (run (· ≠ '\n') cs)) else none := by
  by_cases hc : c = '/'
  · subst hc
    rcases cs with _ | ⟨d, cs⟩
    · simp [front?]
    · by_cases hd : d = '/'
      · subst hd
        rw [take_run]
        simp [front?]
      · simp [front?, hd, Ne.symm hd]
  · simp [front?, hc, Ne.symm hc]

theorem front?_fraction (cs : List Char) :
    (both (text ['.']) (both (one Char.isDigit) (many Char.isDigit))).front? cs =
      match cs with
      | '.' :: rest =>
        if run Char.isDigit rest = 0 then none else some ('.' :: rest.take (run Char.isDigit rest))
      | _ => none := by
  split
  · next rest =>
    have hpoint : (text ['.']).front? ('.' :: rest) = some ['.'] := by simp [front?]
    rw [front?_both hpoint, List.length_singleton, List.drop_succ_cons, List.drop_zero, front?_row]
    split <;> rfl
  · next hpoint =>
    rcases cs with _ | ⟨c, cs⟩
    · rfl
    · have hc : '.' ≠ c := fun h => hpoint cs (by rw [h])
      simp [front?, hc]

theorem front?_numeral (c : Char) (cs : List Char) :
    let digits := both (one Char.isDigit) (many Char.isDigit)
    (both digits (optional (both (text ['.']) digits))).front? (c :: cs) =
      if c.isDigit then some (c :: cs.take (numeralTail cs)) else none := by
  intro digits
  by_cases hc : c.isDigit
  · have hwhole : digits.front? (c :: cs) = some (c :: cs.take (run Char.isDigit cs)) := by
      rw [front?_both_one_many, if_pos hc]
    have hlen : (c :: cs.take (run Char.isDigit cs)).length = run Char.isDigit cs + 1 := by
      rw [List.length_cons, List.length_take_of_le (run_le_length _ cs)]
    rw [front?_both hwhole, hlen, List.drop_succ_cons, if_pos hc, front?, front?_fraction]
    split
    · next rest hpoint =>
      have htail : numeralTail cs = if run Char.isDigit rest = 0 then run Char.isDigit cs
          else run Char.isDigit cs + 1 + run Char.isDigit rest := by
        unfold numeralTail
        simp only [hpoint]
      rw [htail]
      split
      · simp
      · rw [take_decimal hpoint]
        rfl
    · next hpoint =>
      have htail : numeralTail cs = run Char.isDigit cs := by
        unfold numeralTail
        dsimp only
        split
        · next rest hrest => exact absurd hrest (hpoint rest)
        · rfl
      rw [htail]
      simp
  · simp [front?, digits, hc]

/-- The symbol that is found in front of a text. -/
theorem findSome?_symbols (c : Char) (cs : List Char) :
    (symbols.findSome? fun (kind, w) =>
        ((text w.toList).front? (c :: cs)).map (Handler.symbol kind w.toList, ·)) =
      (symbolKind? c).bind fun kind =>
        match withEquals? kind with
        | some longer =>
          if cs.head? = some '=' then some (.symbol longer [c, '='], [c, '='])
          else some (.symbol kind [c], [c])
        | none => some (.symbol kind [c], [c]) := by
  cases h : symbolKind? c with
  | none =>
    have key : symbols.all (fun x => (x.2.toList.head?.bind symbolKind?).isSome) = true := by decide
    rw [Option.bind_none, List.findSome?_eq_none_iff]
    intro x hx
    have hkey := List.all_eq_true.1 key x hx
    have hprefix : ¬x.2.toList <+: c :: cs := by
      intro hp
      cases hw : x.2.toList with
      | nil => simp [hw] at hkey
      | cons d w =>
        rw [hw] at hp
        obtain ⟨rfl, -⟩ := List.cons_prefix_cons.1 hp
        simp [hw, h] at hkey
    simp [front?, hprefix]
  | some kind =>
    unfold symbolKind? at h
    split at h <;> cases h
    all_goals cases cs with
    | nil => rfl
    | cons d cs =>
      by_cases hd : d = '='
      · subst hd
        rfl
      · simp [symbols, front?, withEquals?, hd, Ne.symm hd]

/-- The first pattern that matches is the one for the segment in front, as far as that segment is
recognized by a pattern. -/
theorem choose?_cons (c : Char) (cs : List Char) :
    choose? (c :: cs) = ofSegment? ⟨(cut c cs).1, c :: cs.take (cut c cs).2⟩ := by
  unfold choose? table
  simp only [List.findSome?_append, List.findSome?_cons, List.findSome?_nil, List.findSome?_map,
    Function.comp_def, front?_both_one_many, front?_comment, front?_numeral, findSome?_symbols]
  unfold cut
  by_cases hblank : c.isWhitespace
  · rw [if_pos hblank, if_pos hblank]
    rfl
  rw [if_neg hblank, if_neg hblank]
  by_cases hcomment : c = '/' && cs.head? = some '/'
  · rw [if_pos hcomment, if_pos hcomment]
    rfl
  rw [if_neg hcomment, if_neg hcomment]
  by_cases hdigit : c.isDigit
  · rw [if_pos hdigit, if_pos hdigit]
    rfl
  rw [if_neg hdigit, if_neg hdigit]
  by_cases hword : isWordStart c
  · rw [if_pos hword, if_pos hword]
    rfl
  rw [if_neg hword, if_neg hword]
  by_cases hquote : c = '"'
  · rw [if_pos hquote, hquote]
    dsimp only
    by_cases hclosed : run (· ≠ '"') cs < cs.length
    · rw [if_pos hclosed]
      rfl
    · rw [if_neg hclosed]
      rfl
  · have hnone : (text ['"']).front? (c :: cs) = none := by simp [front?, Ne.symm hquote]
    rw [if_neg hquote, hnone]
    cases symbolKind? c with
    | none => rfl
    | some kind =>
      cases hlonger : withEquals? kind with
      | none => simp [hlonger, ofSegment?]
      | some longer =>
        by_cases hcs : cs.head? = some '='
        · obtain ⟨rest, rfl⟩ := List.head?_eq_some_iff.1 hcs
          simp [hlonger, ofSegment?]
        · simp [hlonger, hcs, ofSegment?]

end Handler

end Lox
