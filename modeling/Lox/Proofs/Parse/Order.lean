import Lox.Proofs.Parse.Accounts
import Lox.Proofs.Scan.Spacing
import Lox.Proofs.Spans

/-!
# The order of diagnostics

The parser moves forward, and a fault is noted where it is found.  There is one exception: that an
equals sign is misplaced is noted when the value to the right of it has been read, so behind the
misplaced equals signs of the value.  Every production keeps to this order
(`Parse.ordered_program`).  The key fact: the diagnostics of a source walk down its tokens but for the
equals signs within such values, and so down the text as far as 32 bits tell the lines and columns
(`TokenStream.ordered_parse_scan`).
-/

namespace Lox

/-! ### Values that are assigned -/

/-- The tokens are the value to the right of the token of the number `i`: an expression that no
token behind it goes on. -/
structure ValueBehind (ts : List Token) (i : Nat) (value : List Token) : Prop where
  isPrefix : value <+: ts.drop (i + 1)
  derives : ∃ room e bad, Tolerant.Derives room .assignment value e bad
  ends : Tolerant.HeadNotIn Precedence.assignment.joining (ts.drop (i + 1 + value.length))

/-- Both faults are misplaced equals signs, and `f` lies in the value to the right of `g`. -/
structure Fault.Within (ts : List Token) (f g : Fault) : Prop where
  inner : f.cause = .invalidAssignmentTarget
  outer : g.cause = .invalidAssignmentTarget
  value : ∃ value, ValueBehind ts g.site.index value ∧ g.site.index < f.site.index ∧
    f.site.index ≤ g.site.index + value.length

/-- The fault `f` may be noted in front of `g`. -/
def Fault.Before (ts : List Token) (f g : Fault) : Prop :=
  f.site.index ≤ g.site.index ∨ f.Within ts g

/-- What was noted from `c` on was noted in order. -/
def Cursor.InOrder (c : Cursor) (notes : List Note) : Prop :=
  (Note.faults notes).Pairwise (Fault.Before c.tokens)

namespace Cursor

variable {c d : Cursor}

theorem drop_index_tokens (c : Cursor) : c.tokens.drop c.index = c.rest ++ [c.eof] := by
  rw [tokens, List.append_assoc, index, ← List.length_reverse, List.drop_left]

/-- The end of input is of none of the kinds either. -/
theorem Closed.headNotIn (hc : c.Closed) {kinds : List TokenKind} (hk : .eof ∉ kinds)
    (h : c.isAt kinds = false) : Tolerant.HeadNotIn kinds (c.tokens.drop c.index) := by
  rw [drop_index_tokens]
  cases hr : c.rest with
  | nil => simpa [hc.1] using hk
  | cons t rest =>
    have hpass := Cursor.passes_advance hr
    rw [List.cons_append, Tolerant.headNotIn_cons, ← hpass.isAt_iff, h]
    decide

theorem Passes.isPrefix {ts : List Token} (h : c.Passes ts d) : ts <+: c.tokens.drop c.index := by
  rw [drop_index_tokens, h.1, List.append_assoc]
  exact List.prefix_append _ _

theorem Passes.drop_tokens {ts : List Token} (h : c.Passes ts d) :
    c.tokens.drop (c.index + ts.length) = d.tokens.drop d.index := by
  rw [h.index, tokens_eq_of_le ⟨ts, h⟩]

end Cursor

/-! ### Chronicles in order -/

namespace Chronicle

variable {c d e : Cursor} {notes notes' : List Note}

/-- What is noted later is found at a later token. -/
theorem inOrder_append (h : Chronicle c notes d) (h' : Chronicle d notes' e)
    (hn : c.InOrder notes) (hn' : d.InOrder notes') : c.InOrder (notes ++ notes') := by
  unfold Cursor.InOrder at hn' ⊢
  rw [Cursor.tokens_eq_of_le h.le] at hn'
  rw [Note.faults_append, List.pairwise_append]
  refine ⟨hn, hn', fun f hf g hg => .inl ?_⟩
  exact Nat.le_trans (h.foundBetween hf).index_le_index (h'.foundBetween hg).index_le

end Chronicle

namespace Parse

variable {α β : Type}

/-- The production leaves chronicles, and on closed streams they are in order. -/
def Ordered (p : Parse α) : Prop :=
  Chronicled p ∧ ∀ c : Cursor, c.Closed → c.InOrder (p c).notes

/-- A production that notes nothing. -/
private theorem ordered_of_quiet {p : Parse α} (hp : Chronicled p) (hn : ∀ c, (p c).notes = []) :
    Ordered p := by
  refine ⟨hp, fun c _ => ?_⟩
  rw [hn c]
  exact .nil

theorem ordered_pure (a : α) : Ordered (pure a) :=
  ordered_of_quiet (chronicled_pure a) fun _ => rfl

theorem Ordered.bind {p : Parse α} {f : α → Parse β} (hp : Ordered p)
    (hf : ∀ a, Ordered (f a)) : Ordered (p >>= f) := by
  refine ⟨hp.1.bind fun a => (hf a).1, fun c hc => ?_⟩
  have hfirst := hp.1 c
  have hn := hp.2 c hc
  rcases hrun : p c with ⟨e | a, d, notes⟩ <;> rw [hrun] at hfirst hn
  · rwa [bind_apply_of_error hrun]
  · rw [bind_apply_of_ok hrun]
    exact hfirst.notes.inOrder_append ((hf a).1 d).notes hn
      ((hf a).2 d (hc.of_le hfirst.notes.le))

theorem ordered_accept (kinds : List TokenKind) : Ordered (accept kinds) := by
  refine ordered_of_quiet (chronicled_accept kinds) fun c => ?_
  unfold accept
  split <;> rfl

theorem Ordered.many {p : Parse (Option α)} (hp : Ordered p) : Ordered (many p) := by
  refine ⟨hp.1.many, fun c hc => ?_⟩
  have hfirst := hp.1 c
  have hn := hp.2 c hc
  fun_induction Parse.many p c with
  | case1 c a d notes hrun _ o ih =>
    rw [hrun] at hfirst hn
    have hd := hc.of_le hfirst.notes.le
    exact hfirst.notes.inOrder_append (hp.1.many d).notes hn (ih hd (hp.1 d) (hp.2 d hd))
  | case2 c a d notes hrun _ => rwa [hrun] at hn
  | case3 c d notes hrun => rwa [hrun] at hn
  | case4 c f d notes hrun => rwa [hrun] at hn

/-- The fault that the production ends with is noted last. -/
theorem Ordered.recovering {p : Parse Stmt} (hp : Ordered p) : Ordered (recovering p) := by
  refine ⟨hp.1.recovering, fun c hc => ?_⟩
  have hfirst := hp.1 c
  have hn := hp.2 c hc
  rcases hrun : p c with ⟨e | s, d, notes⟩ <;> rw [hrun] at hfirst hn
  · rw [recovering_of_error hrun]
    obtain ⟨hs, hp, hsite⟩ := hfirst.fault e rfl
    have he : e = ⟨e.cause, d.site⟩ := by rw [← hsite]
    rw [he]
    exact hfirst.notes.inOrder_append (.recovery hs hp) hn (List.pairwise_singleton ..)
  · rwa [recovering_of_ok hrun]

/-! ### Assignments -/

/-- A value that was read is an expression as far as it goes, and nothing was noted on it but
misplaced equals signs. -/
theorem exists_of_assignedValue {room : Nat} {c d : Cursor} {v : Expr} {notes : List Note}
    (hc : c.Closed) (h : assignedValue room c = ⟨.ok v, d, notes⟩) :
    ∃ value bad, c.Passes value d ∧ (∃ room, Tolerant.Derives room .assignment value v bad) ∧
      Note.Misplaced notes bad ∧ d.isAt Precedence.assignment.joining = false := by
  cases room with
  | zero => cases h
  | succ room =>
    obtain ⟨value, bad, hpass, hderives, hn, hend⟩ := exists_of_expression hc h
    exact ⟨value, bad, hpass, ⟨room, hderives⟩, hn, hend⟩

/-- What was noted on the value stands within it. -/
private theorem within_of_value {room : Nat} {d e : Cursor} {v : Expr} {notes : List Note}
    (hd : d.Closed) (hequals : d.isAt [.assignment] = true)
    (h : assignedValue room d.advance = ⟨.ok v, e, notes⟩) (hn : Chronicle d.advance notes e)
    {f : Fault} (hf : f ∈ Note.faults notes) :
    f.Within d.tokens ⟨.invalidAssignmentTarget, d.site⟩ := by
  obtain ⟨q, -, hstep⟩ := Cursor.exists_passes_of_isAt hequals
  obtain ⟨value, bad, hpass, ⟨room, hderives⟩, hbad, hend⟩ :=
    exists_of_assignedValue (hd.of_passes hstep) h
  have hindex : d.advance.index = d.index + 1 := hstep.index
  have htokens : d.advance.tokens = d.tokens := Cursor.tokens_eq_of_le d.le_advance
  have hcause := hbad.cause_eq hf
  have hfound := hn.foundBetween hf
  have hlt : f.site.index < e.index := by
    obtain ⟨-, b, -, hb, hsite, hassignment⟩ := hfound
    rw [hsite]
    exact Cursor.index_lt_of_advance_le
      (Cursor.atEnd_eq_false_of_isAt (hassignment (by simp [hcause, Cause.isPanic]))) hb
  have hle := hfound.index_le
  have hlen := hpass.index
  refine ⟨hcause, rfl, value, ⟨?_, ⟨room, v, bad, hderives⟩, ?_⟩, ?_, ?_⟩
  · have key := hpass.isPrefix
    rwa [htokens, hindex] at key
  · have key := (hd.of_le (Cursor.le_trans d.le_advance hn.le)).headNotIn (by decide) hend
    rwa [← hpass.drop_tokens, htokens, hindex] at key
  · show d.index < f.site.index
    omega
  · show f.site.index ≤ d.index + value.length
    omega

/-- What stands behind the target of an assignment. -/
private theorem inOrder_assigning {room : Nat} (hv : Ordered (assignedValue room)) (target : Expr)
    {d : Cursor} (hd : d.Closed) (hequals : d.isAt [.assignment] = true) :
    d.InOrder ((assignedValue room >>= assigning target d.site) d.advance).notes := by
  have hchronicle := (hv.1 d.advance).notes
  have hn := hv.2 d.advance (hd.of_le d.le_advance)
  unfold Cursor.InOrder at hn ⊢
  rw [Cursor.tokens_eq_of_le d.le_advance] at hn
  rcases hrun : assignedValue room d.advance with ⟨f | v, e, notes⟩ <;> rw [hrun] at hchronicle hn
  · rwa [bind_apply_of_error hrun]
  · have misplaced : (Note.faults (notes ++ [.fault ⟨.invalidAssignmentTarget, d.site⟩])).Pairwise
        (Fault.Before d.tokens) := by
      rw [Note.faults_append, List.pairwise_append]
      refine ⟨hn, List.pairwise_singleton .., fun f hf g hg => .inr ?_⟩
      rw [List.mem_singleton.1 hg]
      exact within_of_value hd hequals hrun hchronicle hf
    rw [bind_apply_of_ok hrun]
    cases target with
    | var name =>
      show (Note.faults (notes ++ [])).Pairwise _
      rwa [List.append_nil]
    | _ => exact misplaced

theorem Ordered.assigned {target : Parse Expr} {room : Nat} (ht : Ordered target)
    (hv : Ordered (assignedValue room)) : Ordered (assigned target (assignedValue room)) := by
  refine ht.bind fun e => ⟨(chronicled_pure e).assigned hv.1, fun d hd => ?_⟩
  cases hequals : d.isAt [.assignment] with
  | false =>
    rw [bind_apply_of_ok (accept_of_isAt_eq_false hequals)]
    exact .nil
  | true =>
    have hrun : accept [.assignment] d = ⟨.ok (some d.site), d.advance, []⟩ := by
      rw [accept, if_pos hequals]
    rw [bind_apply_of_ok hrun]
    exact inOrder_assigning hv e hd hequals

theorem respects_ordered : Respects (fun p _ => Ordered p) where
  pure := ordered_pure
  bind := Ordered.bind
  here := ordered_of_quiet respects_chronicled.here fun _ => rfl
  skip := ordered_of_quiet respects_chronicled.skip fun _ => rfl
  isAt kinds := ordered_of_quiet (respects_chronicled.isAt kinds) fun _ => rfl
  atEnd := ordered_of_quiet respects_chronicled.atEnd fun _ => rfl
  accept_bind kinds hnone hsome := by
    refine (ordered_accept kinds).bind ?_
    rintro (_ | s)
    · exact hnone
    · exact hsome s s rfl
  refuse hs hp := ordered_of_quiet (chronicled_refuse hs hp) fun _ => rfl
  assigned := Ordered.assigned
  many := Ordered.many
  recovering := Ordered.recovering

theorem ordered_program (room : Nat) : Ordered (program .standard room) :=
  respects_ordered.program (.refl room)

end Parse

/-! ### Diagnostics of a source -/

namespace Diagnostic

/-- The line and the column, if there is one. -/
def position? (d : Diagnostic) : Option Position :=
  d.column.map fun column => ⟨d.line, column⟩

/-- Both diagnostics have a position, and that of the first one is not behind that of the second
one. -/
def AtOrBefore (d d' : Diagnostic) : Prop :=
  ∃ p ∈ d.position?, ∃ q ∈ d'.position?, p ≤ q

instance (d d' : Diagnostic) : Decidable (d.AtOrBefore d') :=
  inferInstanceAs (Decidable (∃ p ∈ d.position?, ∃ q ∈ d'.position?, p ≤ q))

end Diagnostic

theorem Fault.position?_diagnostic (f : Fault) :
    f.diagnostic.position? = some f.site.token.toPosition :=
  rfl

namespace TokenStream

theorem inOrder_parse {s : TokenStream} (hs : s.cursor.Closed) : s.cursor.InOrder s.parse.notes := by
  obtain ⟨d, hrun⟩ := s.exists_run
  have key := (Parse.ordered_program Parse.maxNesting).2 s.cursor hs
  rwa [hrun] at key

theorem toPosition_le_of_index_le {source : String} (hfits : Text.Fits source.toList) {i j : Nat}
    {t u : Token} (ht : (scan source).tokens.toList[i]? = some t)
    (hu : (scan source).tokens.toList[j]? = some u) (h : i ≤ j) : t.toPosition ≤ u.toPosition := by
  obtain ⟨hi, rfl⟩ := List.getElem?_eq_some_iff.1 ht
  obtain ⟨hj, rfl⟩ := List.getElem?_eq_some_iff.1 hu
  rcases Nat.eq_or_lt_of_le h with rfl | h
  · exact le_rfl
  · exact (List.pairwise_iff_getElem.1 (pairwise_toPosition_scan hfits) i j hi hj h).le

/-- The diagnostics of a source walk down its tokens.  Only a misplaced equals sign is reported
behind those in the value to its right.  If the places of the source fit, the diagnostics walk down
the text as well. -/
theorem ordered_parse_scan (source : String) :
    (scan source).tokens.parse.diagnostics =
        (scan source).tokens.parse.faults.map Fault.diagnostic ∧
      (∀ f ∈ (scan source).tokens.parse.faults,
        (scan source).tokens.toList[f.site.index]? = some f.site.token) ∧
      ((scan source).tokens.parse.faults.Pairwise fun f g =>
        f.site.index ≤ g.site.index ∨ f.Within (scan source).tokens.toList g) ∧
      (Text.Fits source.toList → (scan source).tokens.parse.faults.Pairwise fun f g =>
        f.diagnostic.AtOrBefore g.diagnostic ∨ f.Within (scan source).tokens.toList g) := by
  set s := (scan source).tokens
  have he : ∀ t ∈ s.body, t.kind ≠ .eof := fun t => kind_ne_eof_of_mem_body_scan
  have hl : s.last.literal = none := by
    show (scan source).tokens.last.literal = none
    rw [last_scan]
  have htokens : s.cursor.tokens = s.toList := by rw [cursor_eq he]; rfl
  have hnotes := inOrder_parse (closed_cursor he hl)
  unfold Cursor.InOrder at hnotes
  rw [htokens] at hnotes
  have hsites : ∀ f ∈ s.parse.faults, s.toList[f.site.index]? = some f.site.token :=
    fun f hf => (s.faults_parse hf).2
  refine ⟨rfl, hsites, hnotes, fun hfits => hnotes.imp_of_mem fun {f g} hf hg h => ?_⟩
  refine h.imp_left fun hle => ?_
  exact ⟨_, f.position?_diagnostic, _, g.position?_diagnostic,
    toPosition_le_of_index_le hfits (hsites f hf) (hsites g hg) hle⟩

end TokenStream

/-! ### Diagnostics out of order -/

open Segment

/-- Two statements that consist of a parenthesis alone, with `n` spaces between them. -/
def closings (n : Nat) : String :=
  " );" ++ String.ofList (List.replicate n ' ') ++ ");"

theorem Segment.inPlace_of_cut_eq {shape : Shape} {c : Char} {cs : List Char}
    (h : cut c cs = (shape, 0)) : InPlace ⟨shape, [c]⟩ cs := by
  have hplace := inPlace_cut c cs
  rwa [h, List.take_zero, List.drop_zero] at hplace

theorem visible_closing (p : Place) (cs : List Char) : visible p (')' :: ';' :: cs) =
    (p, ⟨.symbol .closeParen, [')']⟩) ::
      (⟨p.line, p.column + 1⟩, ⟨.symbol .semicolon, [';']⟩) ::
        visible ⟨p.line, p.column + 2⟩ cs := by
  have hparen : InPlace ⟨.symbol .closeParen, [')']⟩ (';' :: cs) := inPlace_of_cut_eq rfl
  have hsemicolon : InPlace ⟨.symbol .semicolon, [';']⟩ cs := inPlace_of_cut_eq rfl
  exact (hparen.visible_append (by simp) p).trans
    (congrArg _ (hsemicolon.visible_append (by simp) (p.next ')')))

theorem toList_scan_closings (n : Nat) : (scan (closings n)).tokens.toList =
    [⟨⟨1, 2⟩, .closeParen, ")", none⟩, ⟨⟨1, 3⟩, .semicolon, ";", none⟩,
      ⟨⟨1, (4 + n : Nat)⟩, .closeParen, ")", none⟩,
      ⟨⟨1, (4 + n + 1 : Nat)⟩, .semicolon, ";", none⟩,
      ⟨⟨1, (4 + n + 2 : Nat)⟩, .eof, "", none⟩] := by
  have htext : (closings n).toList =
      [' '] ++ ')' :: ';' :: (List.replicate n ' ' ++ [')', ';']) := by
    simp [closings, String.toList_append]
  have hspaces : ∀ c ∈ List.replicate n ' ', c ∈ blanks := by
    intro c hc
    rw [List.eq_of_mem_replicate hc]
    decide
  have hnewline : '\n' ∉ List.replicate n ' ' := by simp [List.mem_replicate]
  have hgap : Place.after ⟨1, 4⟩ (List.replicate n ' ') = ⟨1, 4 + n⟩ := by
    rw [Place.after_of_no_newline _ hnewline, List.length_replicate]
  have hrest : visible ⟨1, 4⟩ (List.replicate n ' ' ++ [')', ';']) =
      [(⟨1, 4 + n⟩, ⟨.symbol .closeParen, [')']⟩),
        (⟨1, 4 + n + 1⟩, ⟨.symbol .semicolon, [';']⟩)] := by
    rw [visible_append_of_blanks hspaces, hgap, visible_closing, visible_nil]
  have hvisible : visible .start (closings n).toList =
      [(⟨1, 2⟩, ⟨.symbol .closeParen, [')']⟩), (⟨1, 3⟩, ⟨.symbol .semicolon, [';']⟩),
        (⟨1, 4 + n⟩, ⟨.symbol .closeParen, [')']⟩),
        (⟨1, 4 + n + 1⟩, ⟨.symbol .semicolon, [';']⟩)] := by
    rw [htext, visible_append_of_blanks (List.forall_mem_singleton.2 (by decide))]
    exact (visible_closing ⟨1, 2⟩ _).trans (congrArg (_ :: _ :: ·) hrest)
  have hend : Place.start.after (closings n).toList = ⟨1, 4 + n + 2⟩ := by
    rw [htext, Place.after_append]
    show Place.after ⟨1, 4⟩ (List.replicate n ' ' ++ [')', ';']) = _
    rw [Place.after_append, hgap]
    rfl
  rw [TokenStream.toList, scan, Scan.body_ofText, hvisible, Scan.ofText, hend]
  rfl

namespace TokenStream

/-- In `nil = nil = nil;` the second equals sign is reported before the first one.  And behind
2³² - 3 spaces a parenthesis is in column 2³² + 1, which is reported as column 1. -/
theorem not_ordered_parse_scan_equals :
    ¬(scan "nil = nil = nil;").tokens.parse.diagnostics.Pairwise Diagnostic.AtOrBefore ∧
      ¬(scan (closings 4294967293)).tokens.parse.diagnostics.Pairwise Diagnostic.AtOrBefore := by
  have htokens : (scan (closings 4294967293)).tokens =
      ⟨[⟨⟨1, 2⟩, .closeParen, ")", none⟩, ⟨⟨1, 3⟩, .semicolon, ";", none⟩,
        ⟨⟨1, 1⟩, .closeParen, ")", none⟩, ⟨⟨1, 2⟩, .semicolon, ";", none⟩],
        ⟨⟨1, 3⟩, .eof, "", none⟩, rfl⟩ :=
    toList_injective (toList_scan_closings 4294967293)
  refine ⟨by decide +kernel, ?_⟩
  rw [htokens]
  decide +kernel

end TokenStream

end Lox
