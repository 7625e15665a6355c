import Mathlib.Data.List.TakeWhile
import Lox.Cursor
import Lox.Proofs.Grammar

/-!
# Passing tokens

From one cursor to a later one certain tokens are passed.  The key facts: the tokens and the first
cursor determine the second one (`Passes.unique`), the tokens can be passed in pieces
(`passes_append_iff`), and two cursors from which the same tokens are passed to cursors that look
alike look alike themselves (`Passes.looksLike`).
-/

namespace Lox

namespace Cursor

/-- Going from `c` to `d` passes the tokens `ts`. -/
def Passes (c : Cursor) (ts : List Token) (d : Cursor) : Prop :=
  c.rest = ts ++ d.rest ∧ d.passed = ts.reverse ++ c.passed ∧ d.eof = c.eof

theorem passes_nil (c : Cursor) : c.Passes [] c :=
  ⟨rfl, rfl, rfl⟩

theorem passes_of_rest {c : Cursor} {ts rest : List Token} (h : c.rest = ts ++ rest) :
    c.Passes ts ⟨ts.reverse ++ c.passed, rest, c.eof⟩ :=
  ⟨h, rfl, rfl⟩

theorem Passes.eq_of_nil {c d : Cursor} (h : c.Passes [] d) : d = c := by
  obtain ⟨h₁, h₂, h₃⟩ := h
  cases c
  cases d
  simp_all

theorem Passes.unique {c d e : Cursor} {ts : List Token} (h : c.Passes ts d)
    (k : c.Passes ts e) : d = e := by
  obtain ⟨h₁, h₂, h₃⟩ := h
  obtain ⟨k₁, k₂, k₃⟩ := k
  have hr : d.rest = e.rest := List.append_cancel_left (h₁.symm.trans k₁)
  cases d
  cases e
  simp_all

/-- Two places behind `c` with the same tokens ahead are the same. -/
theorem eq_of_le_of_rest_eq {c d e : Cursor} (h : c ≤ d) (k : c ≤ e) (hr : d.rest = e.rest) :
    d = e := by
  obtain ⟨ts, h⟩ := h
  obtain ⟨us, k⟩ := k
  have hts : ts = us := List.append_cancel_right ((h.1.symm.trans k.1).trans (by rw [hr]))
  exact Passes.unique h (hts ▸ k)

theorem Passes.append {c d e : Cursor} {ts us : List Token} (h : c.Passes ts d)
    (k : d.Passes us e) : c.Passes (ts ++ us) e := by
  obtain ⟨h₁, h₂, h₃⟩ := h
  obtain ⟨k₁, k₂, k₃⟩ := k
  exact ⟨by simp [h₁, k₁], by simp [h₂, k₂], k₃.trans h₃⟩

theorem passes_append_iff {c e : Cursor} {ts us : List Token} :
    c.Passes (ts ++ us) e ↔ ∃ d, c.Passes ts d ∧ d.Passes us e := by
  constructor
  · rintro ⟨h₁, h₂, h₃⟩
    refine ⟨_, passes_of_rest (by rw [h₁, List.append_assoc]), rfl, ?_, h₃⟩
    simp [h₂]
  · rintro ⟨d, h, k⟩
    exact h.append k

theorem passes_cons_iff {c e : Cursor} {t : Token} {ts : List Token} :
    c.Passes (t :: ts) e ↔ ∃ d, c.Passes [t] d ∧ d.Passes ts e :=
  @passes_append_iff c e [t] ts

theorem Passes.length_rest {c d : Cursor} {ts : List Token} (h : c.Passes ts d) :
    c.rest.length = ts.length + d.rest.length := by
  rw [h.1, List.length_append]

theorem length_rest_le {c d : Cursor} (h : c ≤ d) : d.rest.length ≤ c.rest.length := by
  obtain ⟨ts, h⟩ := h
  rw [Passes.length_rest h]
  omega

theorem Passes.index {c d : Cursor} {ts : List Token} (h : c.Passes ts d) :
    d.index = c.index + ts.length := by
  simp only [Cursor.index, h.2.1, List.length_append, List.length_reverse]
  omega

/-! ### Single tokens -/

theorem passes_advance {c : Cursor} {t : Token} {rest : List Token} (h : c.rest = t :: rest) :
    c.Passes [t] c.advance := by
  unfold advance
  rw [h]
  exact passes_of_rest h

theorem Passes.advance_eq {c d : Cursor} {t : Token} (h : c.Passes [t] d) : c.advance = d :=
  (passes_advance h.1).unique h

theorem eq_or_advance_le {c d : Cursor} (h : c ≤ d) : d = c ∨ c.advance ≤ d := by
  obtain ⟨ts, hpass⟩ := h
  cases ts with
  | nil => exact .inl (Passes.eq_of_nil hpass)
  | cons t ts =>
    obtain ⟨e, he, hed⟩ := passes_cons_iff.1 hpass
    exact .inr (he.advance_eq ▸ ⟨ts, hed⟩)

theorem Passes.current_eq {c d : Cursor} {t : Token} (h : c.Passes [t] d) : c.current = t := by
  simp [current, h.1]

theorem Passes.previous_eq {c d : Cursor} {t : Token} (h : c.Passes [t] d) : d.previous = t := by
  simp [previous, h.2.1]

theorem Passes.atEnd_eq {c d : Cursor} {t : Token} (h : c.Passes [t] d) : c.atEnd = false := by
  simp [atEnd, h.1]

theorem Passes.isAt_iff {c d : Cursor} {t : Token} (h : c.Passes [t] d) {kinds : List TokenKind} :
    c.isAt kinds = true ↔ t.kind ∈ kinds := by
  simp [isAt, h.1, Token.isOneOf]

theorem exists_passes_of_isAt {c : Cursor} {kinds : List TokenKind} (h : c.isAt kinds = true) :
    ∃ t, t.kind ∈ kinds ∧ c.Passes [t] c.advance := by
  unfold isAt at h
  rcases hr : c.rest with _ | ⟨t, rest⟩
  · simp [hr] at h
  · exact ⟨t, by simpa [hr, Token.isOneOf] using h, passes_advance hr⟩

theorem atEnd_eq_false_of_isAt {c : Cursor} {kinds : List TokenKind} (h : c.isAt kinds = true) :
    c.atEnd = false := by
  obtain ⟨t, -, hpass⟩ := exists_passes_of_isAt h
  exact hpass.atEnd_eq

theorem isAt_nil (c : Cursor) : c.isAt [] = false := by
  unfold isAt
  cases c.rest <;> rfl

theorem isAt_append {c : Cursor} {kinds kinds' : List TokenKind} :
    c.isAt (kinds ++ kinds') = (c.isAt kinds || c.isAt kinds') := by
  unfold isAt
  cases c.rest <;> simp [Token.isOneOf]

theorem isAt_eq_false_of_subset {c : Cursor} {kinds kinds' : List TokenKind}
    (h : c.isAt kinds' = false) (hs : kinds ⊆ kinds') : c.isAt kinds = false := by
  unfold isAt at *
  cases hr : c.rest with
  | nil => rfl
  | cons t rest =>
    simp only [hr, List.head?_cons, Option.any_some, Token.isOneOf, List.contains_eq_mem,
      decide_eq_false_iff_not] at h ⊢
    exact fun ht => h (hs ht)

/-! ### Cursors that look alike -/

/-- The same token is the current one, and both cursors are at the end or neither is. -/
def LooksLike (c d : Cursor) : Prop :=
  c.current = d.current ∧ c.atEnd = d.atEnd

theorem LooksLike.isAt_eq {c d : Cursor} (h : c.LooksLike d) (kinds : List TokenKind) :
    c.isAt kinds = d.isAt kinds := by
  obtain ⟨h₁, h₂⟩ := h
  unfold current atEnd at *
  unfold isAt
  cases hc : c.rest <;> cases hd : d.rest <;> simp_all

theorem LooksLike.refl (c : Cursor) : c.LooksLike c :=
  ⟨rfl, rfl⟩

theorem Passes.looksLike {c c' d d' : Cursor} {ts : List Token} (h : c.Passes ts d)
    (h' : c'.Passes ts d') (hd : d'.LooksLike d) : c'.LooksLike c := by
  cases ts with
  | nil => rwa [← h.eq_of_nil, ← h'.eq_of_nil]
  | cons t ts =>
    obtain ⟨e, he, -⟩ := passes_cons_iff.1 h
    obtain ⟨e', he', -⟩ := passes_cons_iff.1 h'
    exact ⟨he'.current_eq.trans he.current_eq.symm, he'.atEnd_eq.trans he.atEnd_eq.symm⟩

/-! ### Streams -/

/-- The end of the stream is an ordinary end of input. -/
def Closed (c : Cursor) : Prop :=
  c.eof.kind = .eof ∧ c.eof.literal = none

theorem Closed.of_passes {c d : Cursor} {ts : List Token} (hc : c.Closed) (h : c.Passes ts d) :
    d.Closed := by
  unfold Closed
  rwa [h.2.2]

end Cursor

/-- If no end of input comes earlier, all tokens can be reached. -/
theorem TokenStream.cursor_eq {s : TokenStream} (h : ∀ t ∈ s.body, t.kind ≠ .eof) :
    s.cursor = ⟨[], s.body, s.last⟩ := by
  unfold TokenStream.cursor
  congr 1
  · rw [List.takeWhile_eq_self_iff]
    simpa using h
  · rw [List.find?_eq_none.2 (by simpa using h)]
    rfl

end Lox
