import Lox.Proofs.Cursor.Stream

/-!
# Respelled tokens

A respelling changes the lexemes and the places of tokens as it likes, and keeps their kinds and
their values.  A cursor on respelled tokens shows the respelled token and moves in the same way.  The
key facts: respelling goes through `advance` and `synchronize` (`Cursor.advance_respell`,
`Cursor.synchronize_respell`) and leads from the cursor of a stream to that of the respelled stream
(`TokenStream.cursor_respell`).
-/

namespace Lox

/-- A change of tokens that keeps their kinds and values. -/
structure Respelling where
  apply : Token → Token
  kind_apply (t : Token) : (apply t).kind = t.kind
  literal_apply (t : Token) : (apply t).literal = t.literal

namespace Respelling

instance : CoeFun Respelling fun _ => Token → Token := ⟨apply⟩

attribute [simp] kind_apply literal_apply

variable (f : Respelling)

@[simp] theorem isOneOf_apply (t : Token) (kinds : List TokenKind) :
    (f t).isOneOf kinds = t.isOneOf kinds := by
  simp [Token.isOneOf]

end Respelling

variable (f : Respelling)

namespace Site

def respell (s : Site) : Site :=
  ⟨f s.token, s.index⟩

end Site

namespace Cursor

def respell (c : Cursor) : Cursor :=
  ⟨c.passed.map f, c.rest.map f, f c.eof⟩

variable (c : Cursor)

@[simp] theorem current_respell : (c.respell f).current = f c.current := by
  unfold current respell
  cases c.rest <;> rfl

@[simp] theorem index_respell : (c.respell f).index = c.index :=
  List.length_map ..

@[simp] theorem site_respell : (c.respell f).site = c.site.respell f := by
  simp [site, Site.respell]

@[simp] theorem atEnd_respell : (c.respell f).atEnd = c.atEnd :=
  List.isEmpty_map

@[simp] theorem isAt_respell (kinds : List TokenKind) : (c.respell f).isAt kinds = c.isAt kinds := by
  unfold isAt respell
  cases c.rest with
  | nil => rfl
  | cons t rest => exact f.isOneOf_apply t kinds

@[simp] theorem length_rest_respell : (c.respell f).rest.length = c.rest.length :=
  List.length_map ..

@[simp] theorem advance_respell : (c.respell f).advance = c.advance.respell f := by
  unfold advance respell
  cases hc : c.rest <;> simp [hc]

private theorem toBoundary_respell (passed rest : List Token) (eof : Token) :
    toBoundary (passed.map f) (rest.map f) (f eof) = (toBoundary passed rest eof).respell f := by
  induction rest generalizing passed with
  | nil => rfl
  | cons t rest ih =>
    have hsemicolon : (passed.map f).head?.any (·.kind = .semicolon) =
        passed.head?.any (·.kind = .semicolon) := by
      cases passed <;> simp
    rw [List.map_cons, toBoundary, toBoundary, hsemicolon, f.isOneOf_apply]
    split
    · rfl
    · exact ih (t :: passed)

@[simp] theorem synchronize_respell : (c.respell f).synchronize = c.synchronize.respell f := by
  unfold synchronize
  cases hc : c.rest with
  | nil => simp [respell, hc]
  | cons t rest =>
    have hrest : (c.respell f).rest = f t :: rest.map f := by simp [respell, hc]
    rw [hrest]
    exact toBoundary_respell f (t :: c.passed) rest c.eof

end Cursor

namespace TokenStream

def respell (s : TokenStream) : TokenStream where
  body := s.body.map f
  last := f s.last
  last_kind := (f.kind_apply s.last).trans s.last_kind

theorem toList_respell (s : TokenStream) : (s.respell f).toList = s.toList.map f := by
  simp [toList, respell]

theorem cursor_respell (s : TokenStream) : (s.respell f).cursor = s.cursor.respell f := by
  have hrest : (s.body.map f).takeWhile (·.kind ≠ .eof) =
      (s.body.takeWhile (·.kind ≠ .eof)).map f := by
    simp only [List.takeWhile_map, Function.comp_def, Respelling.kind_apply]
  have heof : ((s.body.map f).find? (·.kind = .eof)).getD (f s.last) =
      f ((s.body.find? (·.kind = .eof)).getD s.last) := by
    rw [List.find?_map, Option.getD_map]
    simp only [Function.comp_def, Respelling.kind_apply]
  unfold cursor
  rw [show (s.respell f).body = s.body.map f from rfl, show (s.respell f).last = f s.last from rfl,
    hrest, heof]
  rfl

end TokenStream

end Lox
