import Lox.Token

/-!
# Token streams

A token stream is a list of tokens that is closed by an end-of-input token.  The key fact: these are
exactly the lists whose last token has that kind (`ofList?_eq_some_iff`).  Further end-of-input
tokens may come earlier.
-/

namespace Lox

structure TokenStream where
  body : List Token
  last : Token
  last_kind : last.kind = .eof

namespace TokenStream

def toList (s : TokenStream) : List Token :=
  s.body ++ [s.last]

def ofList? (ts : List Token) : Option TokenStream :=
  match ts.getLast? with
  | none => none
  | some t => if h : t.kind = .eof then some ⟨ts.dropLast, t, h⟩ else none

def size (s : TokenStream) : Nat :=
  s.toList.length

theorem toList_injective {s t : TokenStream} (h : s.toList = t.toList) : s = t := by
  obtain ⟨b, l, hl⟩ := s
  obtain ⟨c, m, hm⟩ := t
  obtain ⟨rfl, h⟩ := List.append_inj' h rfl
  cases h
  rfl

theorem ofList?_toList (s : TokenStream) : ofList? s.toList = some s := by
  simp [ofList?, toList, s.last_kind]

theorem ofList?_eq_some_iff {ts : List Token} {s : TokenStream} :
    ofList? ts = some s ↔ s.toList = ts := by
  constructor
  · intro h
    unfold ofList? at h
    split at h
    · cases h
    · next t ht =>
      split at h
      · cases h
        obtain ⟨body, rfl⟩ := List.getLast?_eq_some_iff.1 ht
        simp [toList]
      · cases h
  · rintro rfl
    exact ofList?_toList s

end TokenStream

end Lox
