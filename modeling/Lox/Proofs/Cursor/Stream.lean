import Lox.Proofs.Cursor.Passing

/-!
# Cursors on streams

The tokens that the cursors on a stream can reach are a beginning of the stream, which ends with its
first end-of-input token (`TokenStream.tokens_cursor_prefix`).  So a cursor is at the end if and only
if it stands at an end-of-input token (`Cursor.Ended.current_kind_iff`), and the number of its token
is the number in the stream (`TokenStream.getElem?_toList_of_le`).  Conversely there is a cursor at
every token (`TokenStream.cursorAt`), and those that are reached from it are of this form
(`TokenStream.eq_cursorAt_of_le`).
-/

namespace Lox

namespace Cursor

theorem getElem?_tokens_index (c : Cursor) : c.tokens[c.index]? = some c.current := by
  unfold tokens index current
  cases c.rest <;> simp

theorem getElem?_tokens_pred_index (c : Cursor) : c.tokens[c.index - 1]? = some c.previous := by
  unfold previous
  cases hp : c.passed with
  | nil =>
    have hindex : c.index = 0 := by simp [index, hp]
    rw [hindex, List.headD_nil, ← c.getElem?_tokens_index, hindex]
  | cons t ts => simp [tokens, index, hp]

/-- The end of input counts among the tokens. -/
theorem length_tokens (c : Cursor) : c.tokens.length = c.index + c.rest.length + 1 := by
  simp [tokens, index, Nat.add_assoc]

theorem synchronize_of_atEnd {c : Cursor} (h : c.atEnd = true) : c.synchronize = c := by
  unfold synchronize
  rw [List.isEmpty_iff.1 h]

theorem index_lt_of_advance_le {c d : Cursor} (hc : c.atEnd = false) (h : c.advance ≤ d) :
    c.index < d.index := by
  rcases hr : c.rest with _ | ⟨t, rest⟩
  · simp [atEnd, hr] at hc
  · have hstep := (passes_advance hr).index
    have hle := index_le_of_le h
    simp only [List.length_singleton] at hstep
    omega

theorem atEnd_of_le {c d : Cursor} (h : c ≤ d) (hc : c.atEnd = true) : d.atEnd = true := by
  have hlen := length_rest_le h
  rw [atEnd, List.isEmpty_iff_length_eq_zero] at hc ⊢
  omega

/-! ### Ends -/

/-- The stream ends with the first of its end-of-input tokens. -/
structure Ended (c : Cursor) : Prop where
  eof : c.eof.kind = .eof
  rest : ∀ t ∈ c.rest, t.kind ≠ .eof

theorem Ended.of_le {c d : Cursor} (hc : c.Ended) (h : c ≤ d) : d.Ended := by
  obtain ⟨ts, h₁, -, h₃⟩ := h
  refine ⟨h₃ ▸ hc.eof, fun t ht => hc.rest t ?_⟩
  rw [h₁]
  exact List.mem_append_right ts ht

theorem Closed.of_le {c d : Cursor} (hc : c.Closed) (h : c ≤ d) : d.Closed := by
  obtain ⟨ts, h⟩ := h
  exact hc.of_passes h

theorem Ended.current_kind_iff {c : Cursor} (hc : c.Ended) :
    c.current.kind = .eof ↔ c.atEnd = true := by
  unfold current atEnd
  cases hr : c.rest with
  | nil => simpa using hc.eof
  | cons t rest => simpa using hc.rest t (by simp [hr])

/-- At the end of input the current token has none of the other kinds. -/
theorem Ended.isAt_iff {c : Cursor} (hc : c.Ended) {kinds : List TokenKind} (hk : .eof ∉ kinds) :
    c.isAt kinds = true ↔ c.current.kind ∈ kinds := by
  unfold isAt current
  cases hr : c.rest with
  | nil => simp [hc.eof, hk]
  | cons t rest => simp [Token.isOneOf]

end Cursor

namespace TokenStream

private theorem reachable_prefix (body : List Token) (last : Token) :
    body.takeWhile (·.kind ≠ .eof) ++ [(body.find? (·.kind = .eof)).getD last] <+:
      body ++ [last] := by
  induction body with
  | nil => exact List.prefix_rfl
  | cons t body ih =>
    by_cases ht : t.kind = .eof
    · simp [ht]
    · simpa [ht] using ih

/-- The number of the first end of input. -/
def firstEnd (s : TokenStream) : Nat :=
  s.toList.findIdx (·.kind = .eof)

private theorem findIdx_eof_append (body : List Token) {last : Token} (h : last.kind = .eof) :
    (body ++ [last]).findIdx (·.kind = .eof) = (body.takeWhile (·.kind ≠ .eof)).length := by
  induction body with
  | nil => simp [List.findIdx_cons, h]
  | cons t body ih =>
    by_cases ht : t.kind = .eof
    · simp [List.findIdx_cons, ht]
    · simpa [List.findIdx_cons, ht] using ih

theorem length_tokens_cursor (s : TokenStream) : s.cursor.tokens.length = s.firstEnd + 1 := by
  rw [Cursor.length_tokens, firstEnd, toList, findIdx_eof_append s.body s.last_kind]
  simp [Cursor.index, cursor]

/-- From everywhere the rest goes up to the first end of input. -/
theorem index_add_length_rest {s : TokenStream} {d : Cursor} (h : s.cursor ≤ d) :
    d.index + d.rest.length = s.firstEnd := by
  have hlen := congrArg List.length (Cursor.tokens_eq_of_le h)
  rw [Cursor.length_tokens, length_tokens_cursor] at hlen
  omega

theorem length_rest_cursor (s : TokenStream) : s.cursor.rest.length = s.firstEnd :=
  (Nat.zero_add _).symm.trans (index_add_length_rest s.cursor.le_refl)

theorem tokens_cursor_prefix (s : TokenStream) : s.cursor.tokens <+: s.toList :=
  reachable_prefix s.body s.last

/-- The tokens of a cursor on the stream have the same numbers in the stream. -/
theorem getElem?_toList_of_tokens {s : TokenStream} {b : Cursor} (h : s.cursor ≤ b) {i : Nat}
    {t : Token} (ht : b.tokens[i]? = some t) : s.toList[i]? = some t := by
  rw [Cursor.tokens_eq_of_le h] at ht
  obtain ⟨hi, hget⟩ := List.getElem?_eq_some_iff.1 ht
  rw [List.prefix_iff_getElem?.1 s.tokens_cursor_prefix _ hi, hget]

theorem getElem?_toList_of_le {s : TokenStream} {b : Cursor} (h : s.cursor ≤ b) :
    s.toList[b.index]? = some b.current :=
  getElem?_toList_of_tokens h b.getElem?_tokens_index

/-- The last token of a stream is an end of input. -/
theorem lt_length_body {s : TokenStream} {i : Nat} {t : Token} (h : s.toList[i]? = some t)
    (ht : t.kind ≠ .eof) : i < s.body.length := by
  by_contra hi
  rw [toList, List.getElem?_append_right (by omega), List.getElem?_singleton] at h
  split at h
  · cases h
    exact ht s.last_kind
  · cases h

/-! ### Cursors by the number of their token -/

/-- The cursor at the token with the number `i`, which goes on to the next end of input. -/
def cursorAt (s : TokenStream) (i : Nat) : Cursor where
  passed := (s.toList.take i).reverse
  rest := (s.toList.drop i).takeWhile (·.kind ≠ .eof)
  eof := ((s.toList.drop i).find? (·.kind = .eof)).getD s.last

variable {s : TokenStream} {i j : Nat}

theorem cursorAt_zero (s : TokenStream) : s.cursorAt 0 = s.cursor := by
  have hlast : [s.last].takeWhile (·.kind ≠ .eof) = [] := by simp [s.last_kind]
  unfold cursorAt cursor toList
  rw [List.take_zero, List.drop_zero, List.takeWhile_append, hlast, List.find?_append]
  congr 1
  · split
    · next hlen => rw [List.append_nil, (List.takeWhile_prefix _).eq_of_length hlen]
    · rfl
  · cases s.body.find? (·.kind = .eof) <;> simp [s.last_kind]

theorem ended_cursorAt (s : TokenStream) (i : Nat) : (s.cursorAt i).Ended := by
  refine ⟨?_, fun t ht => by simpa using List.mem_takeWhile_imp ht⟩
  show (((s.toList.drop i).find? (·.kind = .eof)).getD s.last).kind = .eof
  cases hfind : (s.toList.drop i).find? (·.kind = .eof) with
  | none => exact s.last_kind
  | some t => simpa using List.find?_some hfind

theorem index_cursorAt (hi : i < s.toList.length) : (s.cursorAt i).index = i := by
  simp [cursorAt, Cursor.index, Nat.le_of_lt hi]

theorem current_cursorAt (hi : i < s.toList.length) : (s.cursorAt i).current = s.toList[i] := by
  simp only [cursorAt, Cursor.current, List.drop_eq_getElem_cons hi]
  by_cases hk : s.toList[i].kind = .eof
  · rw [List.takeWhile_cons_of_neg (by simpa using hk), List.find?_cons_of_pos (by simpa using hk)]
    rfl
  · rw [List.takeWhile_cons_of_pos (by simpa using hk)]
    rfl

theorem atEnd_cursorAt (hi : i < s.toList.length) :
    (s.cursorAt i).atEnd = true ↔ s.toList[i].kind = .eof := by
  rw [← current_cursorAt hi, (ended_cursorAt s i).current_kind_iff]

theorem passes_cursorAt (hi : i < s.toList.length) (hk : s.toList[i].kind ≠ .eof) :
    (s.cursorAt i).Passes [s.toList[i]] (s.cursorAt (i + 1)) := by
  have hdrop := List.drop_eq_getElem_cons hi
  refine ⟨?_, ?_, ?_⟩
  · simp only [cursorAt]
    rw [hdrop, List.takeWhile_cons_of_pos (by simpa using hk)]
    rfl
  · show (s.toList.take (i + 1)).reverse = _
    rw [List.take_add_one, List.getElem?_eq_getElem hi, List.reverse_append]
    rfl
  · simp only [cursorAt]
    rw [hdrop, List.find?_cons_of_neg (by simpa using hk)]

theorem exists_cursorAt_of_passes {ts : List Token} {d : Cursor} (hi : i < s.toList.length)
    (h : (s.cursorAt i).Passes ts d) :
    i + ts.length < s.toList.length ∧ d = s.cursorAt (i + ts.length) := by
  induction ts generalizing i with
  | nil => exact ⟨hi, h.eq_of_nil⟩
  | cons t ts ih =>
    obtain ⟨e, he, hed⟩ := Cursor.passes_cons_iff.1 h
    have hk : s.toList[i].kind ≠ .eof := by
      rw [← current_cursorAt hi, he.current_eq]
      exact (ended_cursorAt s i).rest t (by simp [he.1])
    -- the last token of the stream is not passed
    have hnext : i + 1 < s.toList.length := by
      have hbody := lt_length_body (List.getElem?_eq_getElem hi) hk
      simpa [toList] using hbody
    obtain rfl : e = s.cursorAt (i + 1) :=
      he.advance_eq.symm.trans (passes_cursorAt hi hk).advance_eq
    rw [List.length_cons, Nat.add_comm ts.length, ← Nat.add_assoc]
    exact ih hnext hed

/-- What is reached from a place in the stream is a place in the stream. -/
theorem eq_cursorAt_of_le {d : Cursor} (hi : i < s.toList.length) (h : s.cursorAt i ≤ d) :
    d.index < s.toList.length ∧ d = s.cursorAt d.index := by
  obtain ⟨ts, hpass⟩ := h
  have hindex := Cursor.Passes.index hpass
  rw [index_cursorAt hi] at hindex
  rw [hindex]
  exact exists_cursorAt_of_passes hi hpass

/-- The places up to the next end of input are reached. -/
theorem cursorAt_le (hi : i < s.toList.length) (hij : i ≤ j)
    (hj : j ≤ i + (s.cursorAt i).rest.length) : s.cursorAt i ≤ s.cursorAt j := by
  have hpass := Cursor.passes_of_rest (List.take_append_drop (j - i) (s.cursorAt i).rest).symm
  obtain ⟨-, hd⟩ := exists_cursorAt_of_passes hi hpass
  rw [List.length_take_of_le (by omega), Nat.add_sub_cancel' hij] at hd
  exact hd ▸ ⟨_, hpass⟩

theorem ended_cursor (s : TokenStream) : s.cursor.Ended :=
  s.cursorAt_zero ▸ s.ended_cursorAt 0

theorem closed_cursor_of_toList {s : TokenStream}
    (h : ∀ t ∈ s.toList, t.kind = .eof → t.literal = none) : s.cursor.Closed :=
  ⟨s.ended_cursor.eof,
    h _ (s.tokens_cursor_prefix.subset (by simp [Cursor.tokens])) s.ended_cursor.eof⟩

end TokenStream

end Lox
