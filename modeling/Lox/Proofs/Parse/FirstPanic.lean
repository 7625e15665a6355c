import Lox.Proofs.Parse.Stream

/-!
# The first panic of a stream

Where the parser has its first panic, unless it comes from the depth of nesting.  The key fact: the
tokens before it can be completed to a stream without panics, and together with the token it is
found at they cannot (`firstPanic?_exact`).
-/

namespace Lox

open Parse

namespace TokenStream

variable {s : TokenStream} {ts : List Token} {d : Cursor}

theorem index_of_passes (h : s.cursor.Passes ts d) : d.index = ts.length := by
  rw [h.index]
  exact Nat.zero_add _

/-- Where a cursor stands in the list of all tokens. -/
theorem toList_of_passes (he : ∀ t ∈ s.body, t.kind ≠ .eof) (h : s.cursor.Passes ts d) :
    ∃ us, s.toList = ts ++ d.current :: us := by
  rw [cursor_eq he] at h
  obtain ⟨hrest, -, heof⟩ := h
  have hbody : s.body = ts ++ d.rest := hrest
  unfold toList Cursor.current
  rw [hbody, heof]
  cases d.rest with
  | nil => exact ⟨[], by simp⟩
  | cons t rest => exact ⟨rest ++ [s.last], by simp⟩

/-- Every place in the list of all tokens is that of a cursor. -/
theorem exists_passes_of_toList (he : ∀ t ∈ s.body, t.kind ≠ .eof) {t : Token} {us : List Token}
    (h : s.toList = ts ++ t :: us) :
    ∃ d, s.cursor.Passes ts d ∧ d.current = t ∧ (d.atEnd = true ↔ t.kind = .eof) := by
  rw [cursor_eq he]
  unfold toList at h
  rcases List.eq_nil_or_concat us with rfl | ⟨vs, u, rfl⟩
  · obtain ⟨hbody, hlast⟩ := List.append_inj' h rfl
    cases hlast
    refine ⟨⟨ts.reverse, [], s.last⟩, ⟨by simp [hbody], by simp, rfl⟩, rfl, ?_⟩
    simp [Cursor.atEnd, s.last_kind]
  · have hlist : s.body ++ [s.last] = (ts ++ t :: vs) ++ [u] := by simpa using h
    obtain ⟨hbody, -⟩ := List.append_inj' hlist rfl
    have ht : t.kind ≠ .eof := he t (by simp [hbody])
    refine ⟨⟨ts.reverse, t :: vs, s.last⟩, ⟨by simp [hbody], by simp, rfl⟩, rfl, ?_⟩
    simp [Cursor.atEnd, ht]

/-- A first panic that does not come from the depth of nesting is found at the first token with
which no well-formed stream without panics begins: the tokens before it begin such a stream, and
all well-formed streams that begin with them and this token have the same first panic. -/
theorem firstPanic?_exact (hs : s.WellFormed) {f : Fault} (hf : s.parse.firstPanic? = some f)
    (hn : f.cause ≠ .tooDeeplyNested) :
    s.toList[f.site.index]? = some f.site.token ∧
      (∃ s' : TokenStream, s'.WellFormed ∧ s.toList.take f.site.index <+: s'.body ∧
        s'.parse.firstPanic? = none) ∧
      ∀ s' : TokenStream, s'.WellFormed → s.toList.take (f.site.index + 1) <+: s'.toList →
        s'.parse.firstPanic? = some f := by
  have hclosed := closed_cursor hs.kind_ne_eof hs.last
  rw [firstPanic?_parse] at hf
  obtain ⟨ts, d, hc, hsite, hbegins, hsame⟩ :=
    (explained_program maxNesting hclosed).of_firstPanic?_eq_some hf
  obtain ⟨rest, hlist⟩ := toList_of_passes hs.kind_ne_eof hc
  have hindex : d.site.index = ts.length := index_of_passes hc
  have htake : (ts ++ d.current :: rest).take (ts.length + 1) = ts ++ [d.current] := by
    rw [List.take_length_add_append]
    rfl
  rw [hsite, hindex, hlist]
  refine ⟨by simp [Cursor.site], ?_, ?_⟩
  · obtain ⟨k, us, body, bad, hk, -, hus, hprogram⟩ := hbegins
    obtain rfl := hk hn
    have hts : RegularTokens ts := by
      have hbody : s.body = ts ++ d.rest := by
        have key := hc.1
        rwa [cursor_eq hs.kind_ne_eof] at key
      have hregular := hs.body
      rw [hbody] at hregular
      exact hregular.of_append.1
    have hs' : (⟨ts ++ us, s.last, s.last_kind⟩ : TokenStream).WellFormed :=
      ⟨hts.append hus, hs.last⟩
    refine ⟨_, hs', by simp, ?_⟩
    exact (parse_of_program hs'.kind_ne_eof hprogram).2.firstPanic?_eq_none
  · rintro s' hs' ⟨us, hus⟩
    have hlist' : s'.toList = ts ++ d.current :: us := by
      rw [← hus, htake]
      simp
    obtain ⟨d₁, hc₁, hcur₁, hend₁⟩ := exists_passes_of_toList hs.kind_ne_eof hlist
    obtain ⟨d', hc', hcur', hend'⟩ := exists_passes_of_toList hs'.kind_ne_eof hlist'
    rw [← hc.unique hc₁] at hend₁
    have hlike : d'.LooksLike d := ⟨hcur', by rw [Bool.eq_iff_iff, hend', hend₁]⟩
    have hsite' : d'.site = f.site := by
      rw [hsite, Cursor.site, Cursor.site, hcur', index_of_passes hc', index_of_passes hc]
    rw [firstPanic?_parse, hsame _ d' hc' hlike, hsite']

/-- No stream that begins with `print;` can be saved. -/
theorem firstPanic?_print_semicolon :
    let s : TokenStream := ⟨[.plain .kwPrint, .plain .semicolon], .plain .eof, rfl⟩
    let f : Fault := ⟨.expectedExpression, .plain .semicolon, 1⟩
    s.WellFormed ∧ s.parse.firstPanic? = some f ∧ f.cause ≠ .tooDeeplyNested ∧
      ∀ s' : TokenStream, s'.WellFormed →
        [Token.plain .kwPrint, .plain .semicolon] <+: s'.toList → s'.parse.firstPanic? = some f := by
  intro s f
  have hs : s.WellFormed := ⟨by decide, rfl⟩
  have hf : s.parse.firstPanic? = some f := by decide +kernel
  exact ⟨hs, hf, by decide, (firstPanic?_exact hs hf (by decide)).2.2⟩

end TokenStream

end Lox
