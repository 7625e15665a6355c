import Lox.Proofs.Scan.Break

/-!
# Blanking out

Comments and stray characters are like blanks: if a space is written in place of each of their
characters, the tokens stay the same, with their places, and so do the other diagnostics
(`scan_blankOut`).  Nothing is glued together or taken apart, since up to the first space the text
behind a segment is the old one (`Segmentation.exists_prefix_flatMap_blanked`).
-/

namespace Lox

def Cause.isUnexpectedCharacter : Cause → Bool
  | unexpectedCharacter _ => true
  | _ => false

namespace Segment

/-- The segment is a comment or a stray character. -/
def isVoid (s : Segment) : Bool :=
  match s.shape with
  | .comment | .stray => true
  | _ => false

/-- The text of the segment, with a space for each character if it is void. -/
def blanked (s : Segment) : List Char :=
  if s.isVoid then List.replicate s.text.length ' ' else s.text

end Segment

/-- The source with spaces in place of the comments and the stray characters. -/
def blankOut (source : String) : String :=
  String.ofList ((Segment.segments source.toList).flatMap Segment.blanked)

namespace Segment

theorem blanked_of_isVoid {s : Segment} (h : s.isVoid = true) :
    s.blanked = List.replicate s.text.length ' ' :=
  if_pos h

theorem blanked_of_not_isVoid {s : Segment} (h : ¬s.isVoid = true) : s.blanked = s.text :=
  if_neg h

theorem shape_not_mem_of_isVoid {s : Segment} (h : s.isVoid = true) :
    s.shape ∉ [Shape.blank, .string, .openString] := by
  obtain ⟨shape, w⟩ := s
  cases shape <;> simp_all [isVoid]

/-! ### Places -/

/-- The spaces lead to the same place as the text. -/
theorem InPlace.after_blanked {s : Segment} {rest : List Char} (h : InPlace s rest) (p : Place) :
    p.after s.blanked = p.after s.text := by
  by_cases hs : s.isVoid = true
  · have hspaces : '\n' ∉ List.replicate s.text.length ' ' := by simp [List.mem_replicate]
    have htext : '\n' ∉ s.text := h.newline_not_mem (shape_not_mem_of_isVoid hs)
    rw [blanked_of_isVoid hs, Place.after_of_no_newline p hspaces,
      Place.after_of_no_newline p htext, List.length_replicate]
  · rw [blanked_of_not_isVoid hs]

theorem Segmentation.after_flatMap_blanked {cs : List Char} {ss : List Segment}
    (h : Segmentation cs ss) (p : Place) : p.after (ss.flatMap blanked) = p.after cs := by
  induction h generalizing p with
  | nil => rfl
  | cons h _ ih =>
    rw [List.flatMap_cons, Place.after_append, Place.after_append, h.after_blanked, ih]

/-! ### Visible segments -/

/-- Up to the first space written, the text stays as it was. -/
theorem Segmentation.exists_prefix_flatMap_blanked {cs : List Char} {ss : List Segment}
    (h : Segmentation cs ss) : ∃ u x, u <+: cs ∧ ss.flatMap blanked = u ++ x ∧
      ∀ shape, shape ≠ .comment → Breaks shape x := by
  induction h with
  | nil => exact ⟨[], [], List.prefix_rfl, rfl, fun shape _ => breaks_nil shape⟩
  | @cons s rest ss h _ ih =>
    by_cases hs : s.isVoid = true
    · obtain ⟨c, w, hw⟩ := List.exists_cons_of_ne_nil h.text_ne_nil
      have hx : (s :: ss).flatMap blanked =
          ' ' :: (List.replicate w.length ' ' ++ ss.flatMap blanked) := by
        rw [List.flatMap_cons, blanked_of_isVoid hs, hw]
        rfl
      refine ⟨[], _, List.nil_prefix, hx, fun shape hshape => ?_⟩
      exact breaks_cons (by simp [blanks]) (fun h => absurd h hshape) _
    · obtain ⟨u, x, hu, hx, hbreaks⟩ := ih
      refine ⟨s.text ++ u, x, (List.prefix_append_right_inj _).2 hu, ?_, hbreaks⟩
      rw [List.flatMap_cons, blanked_of_not_isVoid hs, hx, List.append_assoc]

theorem Segmentation.eq_nil {ss : List Segment} (h : Segmentation [] ss) : ss = [] := by
  rw [segmentation_iff.1 h, segments_nil]

/-- A segment stays what it is in front of a text that is blanked out. -/
theorem InPlace.flatMap_blanked {s : Segment} {rest : List Char} {ss : List Segment}
    (h : InPlace s rest) (hss : Segmentation rest ss) (hvoid : ¬s.isVoid = true)
    (hblank : s.shape ≠ .blank) : InPlace s (ss.flatMap blanked) := by
  by_cases hopen : s.shape = .openString
  · -- a string that is not closed is the last segment
    obtain rfl := h.rest_eq_nil hopen
    rwa [hss.eq_nil]
  · obtain ⟨u, x, hu, hx, hbreaks⟩ := hss.exists_prefix_flatMap_blanked
    have hcomment : s.shape ≠ .comment := fun hc => hvoid (by simp [isVoid, hc])
    rw [hx]
    exact h.of_breaks (by simp [hblank, hopen]) hu (hbreaks s.shape hcomment)

/-- The void segments are left out, and the others are found where they were. -/
theorem Segmentation.visible_flatMap_blanked {cs : List Char} {ss : List Segment}
    (h : Segmentation cs ss) (p : Place) :
    visible p (ss.flatMap blanked) = (visible p cs).filter (!·.2.isVoid) := by
  induction h generalizing p with
  | nil => rw [List.flatMap_nil, visible_nil, List.filter_nil]
  | @cons s rest ss h hss ih =>
    rw [List.flatMap_cons]
    by_cases hvoid : s.isVoid = true
    · have hspaces : ∀ c ∈ s.blanked, c ∈ blanks := by
        intro c hc
        rw [blanked_of_isVoid hvoid] at hc
        obtain rfl := List.eq_of_mem_replicate hc
        simp [blanks]
      have hblank : s.shape ≠ .blank := fun hb => by simp [isVoid, hb] at hvoid
      rw [visible_append_of_blanks hspaces, h.after_blanked, ih, h.visible_append hblank,
        List.filter_cons_of_neg (by simp [hvoid])]
    · rw [blanked_of_not_isVoid hvoid]
      by_cases hblank : s.shape = .blank
      · have hw := h.mem_blanks hblank
        rw [visible_append_of_blanks hw, visible_append_of_blanks hw, ih]
      · have hplace := h.flatMap_blanked hss hvoid hblank
        rw [hplace.visible_append hblank, h.visible_append hblank, ih,
          List.filter_cons_of_pos (by simp [hvoid])]

/-! ### Tokens and diagnostics -/

theorem filterMap_token?_filter_isVoid (xs : List (Place × Segment)) :
    (xs.filter (!·.2.isVoid)).filterMap (fun (p, s) => s.token? p.position) =
      xs.filterMap fun (p, s) => s.token? p.position := by
  rw [List.filterMap_filter]
  refine List.filterMap_congr fun ⟨p, shape, w⟩ _ => ?_
  cases shape <;> rfl

theorem filterMap_diagnostic?_filter_isVoid (xs : List (Place × Segment)) :
    (xs.filter (!·.2.isVoid)).filterMap (fun (p, s) => s.diagnostic? p.position) =
      (xs.filterMap fun (p, s) => s.diagnostic? p.position).filter (!·.cause.isUnexpectedCharacter) := by
  rw [List.filterMap_filter, List.filter_filterMap]
  refine List.filterMap_congr fun ⟨p, shape, w⟩ _ => ?_
  cases shape <;> cases w <;> rfl

end Segment

open Segment

/-- With spaces in place of comments and stray characters a source has the same tokens at the same
places, and the same diagnostics but for those of the stray characters. -/
theorem scan_blankOut (source : String) :
    (scan (blankOut source)).tokens = (scan source).tokens ∧
      (scan (blankOut source)).diagnostics =
        (scan source).diagnostics.filter (!·.cause.isUnexpectedCharacter) := by
  have hseg := segmentation_segments source.toList
  have hvisible := hseg.visible_flatMap_blanked .start
  have hscan : scan (blankOut source) =
      Scan.ofText .start ((segments source.toList).flatMap blanked) := by
    rw [scan, blankOut, String.toList_ofList]
  rw [hscan]
  constructor
  · refine TokenStream.toList_injective ?_
    have hbody : (Scan.ofText .start ((segments source.toList).flatMap blanked)).tokens.body =
        (scan source).tokens.body := by
      rw [Scan.body_ofText, hvisible, filterMap_token?_filter_isVoid, ← Scan.body_ofText]
      rfl
    have hlast : (Scan.ofText .start ((segments source.toList).flatMap blanked)).tokens.last =
        (scan source).tokens.last := by
      unfold Scan.ofText
      rw [hseg.after_flatMap_blanked]
      rfl
    rw [TokenStream.toList, hbody, hlast]
    rfl
  · rw [Scan.diagnostics_ofText, hvisible, filterMap_diagnostic?_filter_isVoid,
      ← Scan.diagnostics_ofText]
    rfl

end Lox
