import Lox.Proofs.Spans

/-!
# Breaks

Where a segment ends does not depend on what stands behind a blank: a text may be broken off there,
and the segment stays what it is (`InPlace.of_breaks`).  Blanks themselves only keep the segments
apart.  The key fact: the visible segments behind some blanks are the same as without them, but for
their places (`visible_append_of_blanks`).
-/

namespace Lox

namespace Segment

/-! ### Breaks -/

/-- The text does not go on with a segment of this shape in front of it: it is empty or begins with
a blank, and behind a comment only a newline will do. -/
def Breaks (shape : Shape) (cs : List Char) : Prop :=
  ∀ b ∈ cs.head?, b ∈ blanks ∧ (shape = .comment → b = '\n')

theorem breaks_nil (shape : Shape) : Breaks shape [] := by
  simp [Breaks]

theorem breaks_cons {shape : Shape} {b : Char} (hb : b ∈ blanks) (hc : shape = .comment → b = '\n')
    (cs : List Char) : Breaks shape (b :: cs) := by
  intro d hd
  obtain rfl : b = d := by simpa using hd
  exact ⟨hb, hc⟩

theorem InPlace.shape_eq_cut {shape : Shape} {c : Char} {w rest : List Char}
    (h : InPlace ⟨shape, c :: w⟩ rest) : shape = (cut c (w ++ rest)).1 :=
  congrArg Segment.shape (h.eq_cut rfl)

/-- A string that is closed holds its closing quote. -/
theorem InPlace.quote_mem_tail {shape : Shape} {w rest : List Char}
    (h : InPlace ⟨shape, '"' :: w⟩ rest) (hs : shape ≠ .openString) : '"' ∈ w := by
  have hshape : shape = .string := by
    have hcut := h.shape_eq_cut
    rw [cut_of_quote] at hcut
    split at hcut
    · exact hcut
    · exact absurd hcut hs
  subst hshape
  cases h with
  | lexeme h =>
    cases h.lexeme
    simp

/-- No lexeme begins with a segment and goes on with the text in front of a break and the break
itself. -/
theorem InPlace.not_lexeme_of_break {shape shape' : Shape} {w rest u y : List Char} {b : Char}
    (h : InPlace ⟨shape, w⟩ rest) (hs : shape ∉ [Shape.blank, .openString]) (hu : u <+: rest)
    (hb : b ∈ blanks) (hc : shape = .comment → b = '\n') : ¬Lexeme shape' (w ++ u ++ b :: y) := by
  intro hv
  have hshape' : shape' ∈ [Shape.blank, .comment, .string] :=
    Decidable.byContradiction fun hn => hv.not_mem_blanks hn b (by simp) hb
  obtain ⟨c, t, rfl⟩ := List.exists_cons_of_ne_nil h.text_ne_nil
  obtain ⟨rest, rfl⟩ := hu
  have hcut := h.shape_eq_cut
  rw [← List.append_assoc] at hcut
  generalize hv' : c :: t ++ u ++ b :: y = v at hv
  simp only [List.cons_append] at hv'
  cases hv with
  | integer | decimal | word | symbol => simp at hshape'
  | blank _ hall =>
    have hblank : c ∈ blanks := hall c (by simp [← hv'])
    rw [cut_of_blank hblank] at hcut
    exact hs (by simp [hcut])
  | @comment z hz =>
    obtain ⟨rfl, htail⟩ := List.cons.inj hv'
    rcases htu : t ++ u with _ | ⟨d, r⟩
    · -- the second slash is no blank
      rw [htu] at htail
      obtain ⟨rfl, -⟩ := List.cons.inj htail
      exact absurd hb (by decide)
    · rw [htu] at htail hcut
      obtain ⟨rfl, rfl⟩ := List.cons.inj htail
      rw [List.cons_append, cut_of_slashes] at hcut
      exact hz (by simp [hc hcut])
  | @string z hz =>
    obtain ⟨rfl, htail⟩ := List.cons.inj hv'
    -- the closing quote of the segment stands in front of the break
    have hquote : '"' ∈ t := h.quote_mem_tail (by rintro rfl; simp at hs)
    obtain ⟨y', d, hy⟩ : ∃ y' d, b :: y = y' ++ [d] :=
      ⟨_, _, (List.dropLast_append_getLast (List.cons_ne_nil b y)).symm⟩
    rw [hy, ← List.append_assoc] at htail
    obtain ⟨rfl, -⟩ := List.append_inj' htail rfl
    exact hz (by simp [hquote])

/-- A segment stays what it is if the text behind it is broken off. -/
theorem InPlace.of_breaks {s : Segment} {rest u x : List Char} (h : InPlace s rest)
    (hs : s.shape ∉ [Shape.blank, .openString]) (hu : u <+: rest) (hx : Breaks s.shape x) :
    InPlace s (u ++ x) := by
  obtain ⟨shape, w⟩ := s
  -- a lexeme that starts at the same place ends in front of the break
  have key : ∀ shape' v, Lexeme shape' v → v <+: w ++ (u ++ x) → v <+: w ++ rest := by
    intro shape' v hv hp
    have hwu : w ++ u <+: w ++ rest := (List.prefix_append_right_inj w).2 hu
    rw [← List.append_assoc] at hp
    rcases List.prefix_or_prefix_of_prefix hp (List.prefix_append _ x) with hle | ⟨y, rfl⟩
    · exact hle.trans hwu
    · cases y with
      | nil => rwa [List.append_nil]
      | cons b y =>
        obtain ⟨x', rfl⟩ := (List.prefix_append_right_inj _).1 hp
        obtain ⟨hb, hc⟩ := hx b rfl
        exact absurd hv (h.not_lexeme_of_break hs hu hb hc)
  cases h with
  | lexeme h => exact .lexeme ⟨h.lexeme, fun hv hp => h.length_le hv (key _ _ hv hp)⟩
  | stray hc h => exact .stray hc fun shape' v hv hp => h shape' v hv (key shape' v hv hp)
  | openString => simp at hs

theorem InPlace.segments_append {s : Segment} {rest : List Char} (h : InPlace s rest) :
    segments (s.text ++ rest) = s :: segments rest :=
  (segmentation_iff.1 (.cons h (segmentation_segments rest))).symm

/-! ### Visible segments -/

/-- The segments of a text that begins at `p`, with their places, without the blanks. -/
def visible (p : Place) (cs : List Char) : List (Place × Segment) :=
  (placed p (segments cs)).filter (·.2.shape ≠ .blank)

@[simp] theorem visible_nil (p : Place) : visible p [] = [] := by
  simp [visible, placed]

theorem InPlace.visible_append {s : Segment} {rest : List Char} (h : InPlace s rest)
    (hs : s.shape ≠ .blank) (p : Place) :
    visible p (s.text ++ rest) = (s.place p, s) :: visible (p.after s.text) rest := by
  rw [visible, h.segments_append, placed, List.filter_cons_of_pos (by simpa using hs)]
  rfl

/-- All blanks in front of a text are one segment. -/
theorem visible_dropWhile (p : Place) (cs : List Char) :
    visible p cs =
      visible (p.after (cs.takeWhile Char.isWhitespace)) (cs.dropWhile Char.isWhitespace) := by
  cases cs with
  | nil => rfl
  | cons c cs =>
    by_cases hc : c ∈ blanks
    · have hc' := isWhitespace_iff.2 hc
      rw [visible, segments_cons, cut_of_blank hc, placed, List.filter_cons_of_neg (by simp),
        take_run, drop_run, List.takeWhile_cons_of_pos hc', List.dropWhile_cons_of_pos hc']
      rfl
    · have hc' : ¬c.isWhitespace = true := fun h => hc (isWhitespace_iff.1 h)
      rw [List.takeWhile_cons_of_neg hc', List.dropWhile_cons_of_neg hc', Place.after_nil]

/-- Blanks in front of a text only move it on. -/
theorem visible_append_of_blanks {w : List Char} (h : ∀ c ∈ w, c ∈ blanks) (p : Place)
    (cs : List Char) : visible p (w ++ cs) = visible (p.after w) cs := by
  have hw : ∀ c ∈ w, c.isWhitespace = true := fun c hc => isWhitespace_iff.2 (h c hc)
  rw [visible_dropWhile, List.takeWhile_append_of_pos hw, List.dropWhile_append_of_pos hw,
    Place.after_append, ← visible_dropWhile]

theorem InPlace.mem_blanks {s : Segment} {rest : List Char} (h : InPlace s rest)
    (hs : s.shape = .blank) : ∀ c ∈ s.text, c ∈ blanks := by
  cases h with
  | @lexeme shape w _ h =>
    obtain rfl : shape = .blank := hs
    cases h.lexeme with
    | blank _ hall => exact hall
  | stray | openString => cases hs

theorem filterMap_visible {α : Type} {f : Position → Segment → Option α}
    (hf : ∀ p s, s.shape = .blank → f p s = none) (p : Place) (cs : List Char) :
    ((placed p (segments cs)).filterMap fun (p, s) => f p.position s) =
      (visible p cs).filterMap fun (p, s) => f p.position s := by
  rw [visible, List.filterMap_filter]
  refine List.filterMap_congr fun x _ => ?_
  by_cases hx : x.2.shape = .blank
  · simp [hx, hf x.1.position x.2 hx]
  · simp [hx]

end Segment

namespace Scan

open Segment

theorem body_ofText (p : Place) (cs : List Char) :
    (ofText p cs).tokens.body = (visible p cs).filterMap fun (p, s) => s.token? p.position :=
  filterMap_visible (fun p s hs => by rw [token?, hs]) p cs

theorem diagnostics_ofText (p : Place) (cs : List Char) :
    (ofText p cs).diagnostics =
      (visible p cs).filterMap fun (p, s) => s.diagnostic? p.position :=
  filterMap_visible (fun p s hs => by rw [diagnostic?, hs]) p cs

end Scan

end Lox
