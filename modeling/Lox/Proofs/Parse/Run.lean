import Lox.Parse
import Lox.Proofs.Cursor.Passing
import Lox.Proofs.Grammar.Tolerant

/-!
# Runs of productions

How a production ends: it yields a value, or it fails at the current token, and in both cases it has
noted nothing but misplaced equals signs on the way.  The rules for sequences and repetitions follow
the definitions of the combinators.  A fault other than a misplaced equals sign is called a panic;
the first panic of a sequence is that of its first part, if there is one (`firstPanic?_bind`).
-/

namespace Lox

/-- The tokens passed start with the current one. -/
theorem Cursor.Passes.headNotIn {c d : Cursor} {ts : List Token} {kinds : List TokenKind}
    (h : c.Passes ts d) (hk : c.isAt kinds = false) : Tolerant.HeadNotIn kinds ts := by
  cases ts with
  | nil => simp [Tolerant.HeadNotIn]
  | cons t ts =>
    obtain ⟨e, he, -⟩ := passes_cons_iff.1 h
    rw [Tolerant.headNotIn_cons, ← he.isAt_iff, hk]
    decide

/-! ### Panics -/

/-- A fault that ends a statement. -/
def Cause.isPanic (c : Cause) : Bool :=
  c ≠ .invalidAssignmentTarget

namespace Note

def firstPanic? (notes : List Note) : Option Fault :=
  (faults notes).find? (·.cause.isPanic)

/-- The notes report that the equals signs `bad` are misplaced, and nothing else. -/
def Misplaced (notes : List Note) (bad : List Token) : Prop :=
  ∃ sites : List Site, sites.map Site.token = bad ∧
    notes = sites.map fun s => .fault ⟨.invalidAssignmentTarget, s⟩

theorem faults_append (notes notes' : List Note) :
    faults (notes ++ notes') = faults notes ++ faults notes' := by
  simp [faults]

theorem firstPanic?_append (notes notes' : List Note) :
    firstPanic? (notes ++ notes') = (firstPanic? notes).or (firstPanic? notes') := by
  simp [firstPanic?, faults_append]

theorem misplaced_nil : Misplaced [] [] :=
  ⟨[], rfl, rfl⟩

theorem misplaced_singleton (s : Site) :
    Misplaced [.fault ⟨.invalidAssignmentTarget, s⟩] [s.token] :=
  ⟨[s], rfl, rfl⟩

theorem Misplaced.append {notes notes' : List Note} {bad bad' : List Token}
    (h : Misplaced notes bad) (h' : Misplaced notes' bad') :
    Misplaced (notes ++ notes') (bad ++ bad') := by
  obtain ⟨sites, rfl, rfl⟩ := h
  obtain ⟨sites', rfl, rfl⟩ := h'
  exact ⟨sites ++ sites', by simp, by simp⟩

theorem Misplaced.faults_eq {notes : List Note} {bad : List Token} (h : Misplaced notes bad) :
    ∃ sites : List Site, sites.map Site.token = bad ∧
      faults notes = sites.map fun s => ⟨.invalidAssignmentTarget, s⟩ := by
  obtain ⟨sites, hs, rfl⟩ := h
  exact ⟨sites, hs, by simp [faults, List.filterMap_map, Function.comp_def, fault?]⟩

theorem Misplaced.cause_eq {notes : List Note} {bad : List Token} (h : Misplaced notes bad)
    {f : Fault} (hf : f ∈ faults notes) : f.cause = .invalidAssignmentTarget := by
  obtain ⟨sites, -, hs⟩ := h.faults_eq
  rw [hs] at hf
  obtain ⟨s, -, rfl⟩ := List.mem_map.1 hf
  rfl

theorem Misplaced.diagnostics_eq {notes : List Note} {bad : List Token} (h : Misplaced notes bad) :
    diagnostics notes = bad.map (Diagnostic.atToken .invalidAssignmentTarget) := by
  obtain ⟨sites, rfl, hs⟩ := h.faults_eq
  simp [diagnostics, hs, Fault.diagnostic]

theorem Misplaced.firstPanic?_eq_none {notes : List Note} {bad : List Token}
    (h : Misplaced notes bad) : firstPanic? notes = none := by
  obtain ⟨sites, -, hs⟩ := h.faults_eq
  simp [firstPanic?, hs, Cause.isPanic]

end Note

/-- The first panic among what is noted and what the production ends with. -/
def Outcome.firstPanic? {α : Type} (o : Outcome α) : Option Fault :=
  (Note.firstPanic? o.notes).or <|
    match o.result with
    | .ok _ => none
    | .error f => if f.cause.isPanic then some f else none

namespace Parse

variable {α β : Type}

/-- The production ends with the value `a` at the cursor `d`. -/
def Yields (p : Parse α) (c : Cursor) (a : α) (bad : List Token) (d : Cursor) : Prop :=
  ∃ notes, Note.Misplaced notes bad ∧ p c = ⟨.ok a, d, notes⟩

/-- The production ends with a fault at the cursor `d`. -/
def Fails (p : Parse α) (c : Cursor) (cause : Cause) (bad : List Token) (d : Cursor) : Prop :=
  ∃ notes, Note.Misplaced notes bad ∧ p c = ⟨.error ⟨cause, d.site⟩, d, notes⟩

/-! ### Sequences -/

/-- If a sequence ends with a value, both parts do. -/
theorem exists_of_bind_eq_ok {p : Parse α} {f : α → Parse β} {c e : Cursor} {b : β}
    {notes : List Note} (h : (p >>= f) c = ⟨.ok b, e, notes⟩) :
    ∃ a d n n', p c = ⟨.ok a, d, n⟩ ∧ f a d = ⟨.ok b, e, n'⟩ ∧ notes = n ++ n' := by
  rcases hp : p c with ⟨g | a, d, n⟩
  · rw [bind_apply_of_error hp] at h
    cases h
  · rw [bind_apply_of_ok hp] at h
    rcases hf : f a d with ⟨g | b', e', n'⟩ <;> rw [hf] at h <;> cases h
    exact ⟨a, d, n, n', rfl, hf, rfl⟩

theorem yields_pure (a : α) (c : Cursor) : Yields (pure a) c a [] c :=
  ⟨[], Note.misplaced_nil, rfl⟩

theorem fails_refuse (cause : Cause) (c : Cursor) : Fails (refuse cause : Parse α) c cause [] c :=
  ⟨[], Note.misplaced_nil, rfl⟩

theorem Yields.bind {p : Parse α} {f : α → Parse β} {c d e : Cursor} {a : α} {b : β}
    {bad bad' : List Token} (hp : Yields p c a bad d) (hf : Yields (f a) d b bad' e) :
    Yields (p >>= f) c b (bad ++ bad') e := by
  obtain ⟨notes, hn, hc⟩ := hp
  obtain ⟨notes', hn', hd⟩ := hf
  refine ⟨notes ++ notes', hn.append hn', ?_⟩
  rw [bind_apply_of_ok hc, hd]

theorem Yields.bind_nil {p : Parse α} {f : α → Parse β} {c d e : Cursor} {a : α} {b : β}
    {bad : List Token} (hp : Yields p c a bad d) (hf : Yields (f a) d b [] e) :
    Yields (p >>= f) c b bad e := by
  have key := hp.bind hf
  rwa [List.append_nil] at key

theorem Yields.bind_pure {p : Parse α} {f : α → Parse β} {c d : Cursor} {a : α} {b : β}
    {bad : List Token} (hp : Yields p c a bad d) (hf : f a = pure b) :
    Yields (p >>= f) c b bad d :=
  hp.bind_nil (hf ▸ yields_pure b d)

theorem Yields.bind_fails {p : Parse α} {f : α → Parse β} {c d e : Cursor} {a : α} {cause : Cause}
    {bad bad' : List Token} (hp : Yields p c a bad d) (hf : Fails (f a) d cause bad' e) :
    Fails (p >>= f) c cause (bad ++ bad') e := by
  obtain ⟨notes, hn, hc⟩ := hp
  obtain ⟨notes', hn', hd⟩ := hf
  refine ⟨notes ++ notes', hn.append hn', ?_⟩
  rw [bind_apply_of_ok hc, hd]

theorem Yields.bind_fails_nil {p : Parse α} {f : α → Parse β} {c d e : Cursor} {a : α}
    {cause : Cause} {bad : List Token} (hp : Yields p c a bad d) (hf : Fails (f a) d cause [] e) :
    Fails (p >>= f) c cause bad e := by
  have key := hp.bind_fails hf
  rwa [List.append_nil] at key

theorem Fails.bind {p : Parse α} {c d : Cursor} {cause : Cause} {bad : List Token}
    (hp : Fails p c cause bad d) (f : α → Parse β) : Fails (p >>= f) c cause bad d := by
  obtain ⟨notes, hn, hc⟩ := hp
  exact ⟨notes, hn, bind_apply_of_error hc⟩

/-! ### Single tokens -/

theorem yields_here (c : Cursor) : Yields here c c.current [] c :=
  ⟨[], Note.misplaced_nil, rfl⟩

theorem skip_of_passes {c d : Cursor} {t : Token} (h : c.Passes [t] d) :
    skip c = ⟨.ok (), d, []⟩ := by
  rw [← h.advance_eq]
  rfl

theorem yields_skip {c d : Cursor} {t : Token} (h : c.Passes [t] d) : Yields skip c () [] d :=
  ⟨[], Note.misplaced_nil, skip_of_passes h⟩

/-- Notes that an equals sign is misplaced, and keeps the value. -/
def keeping (a : α) (equals : Site) : Parse α :=
  note ⟨.invalidAssignmentTarget, equals⟩ >>= fun _ => pure a

theorem yields_keeping (a : α) (equals : Site) (c : Cursor) :
    Yields (keeping a equals) c a [equals.token] c :=
  ⟨_, Note.misplaced_singleton equals, rfl⟩

theorem accept_of_passes {c d : Cursor} {t : Token} {kinds : List TokenKind}
    (h : c.Passes [t] d) (ht : t.kind ∈ kinds) :
    accept kinds c = ⟨.ok (some ⟨t, c.index⟩), d, []⟩ := by
  rw [accept, if_pos (h.isAt_iff.2 ht), h.advance_eq, Cursor.site, h.current_eq]

theorem accept_of_isAt_eq_false {c : Cursor} {kinds : List TokenKind} (h : c.isAt kinds = false) :
    accept kinds c = ⟨.ok none, c, []⟩ := by
  rw [accept, if_neg (by simp [h])]

theorem expect_of_passes {c d : Cursor} {t : Token} {kind : TokenKind} (message : String)
    (h : c.Passes [t] d) (ht : t.kind = kind) : expect kind message c = ⟨.ok t, d, []⟩ := by
  rw [expect, bind_apply_of_ok (accept_of_passes h (by simp [ht]))]
  rfl

theorem expect_of_isAt_eq_false {c : Cursor} {kind : TokenKind} (message : String)
    (h : c.isAt [kind] = false) :
    expect kind message c = ⟨.error ⟨.expectedToken kind.text message, c.site⟩, c, []⟩ := by
  rw [expect, bind_apply_of_ok (accept_of_isAt_eq_false h)]
  rfl

theorem passes_of_expect_eq_ok {c d : Cursor} {t : Token} {kind : TokenKind} {message : String}
    {notes : List Note} (h : expect kind message c = ⟨.ok t, d, notes⟩) :
    c.Passes [t] d ∧ t.kind = kind ∧ notes = [] := by
  cases hk : c.isAt [kind] with
  | false =>
    rw [expect_of_isAt_eq_false message hk] at h
    cases h
  | true =>
    obtain ⟨u, hu, hpass⟩ := Cursor.exists_passes_of_isAt hk
    have hu := List.mem_singleton.1 hu
    rw [expect_of_passes message hpass hu] at h
    cases h
    exact ⟨hpass, hu, rfl⟩

theorem yields_accept_some {c d : Cursor} {t : Token} {kinds : List TokenKind}
    (h : c.Passes [t] d) (ht : t.kind ∈ kinds) :
    Yields (accept kinds) c (some ⟨t, c.index⟩) [] d :=
  ⟨[], Note.misplaced_nil, accept_of_passes h ht⟩

theorem yields_accept_none {c : Cursor} {kinds : List TokenKind} (h : c.isAt kinds = false) :
    Yields (accept kinds) c none [] c :=
  ⟨[], Note.misplaced_nil, accept_of_isAt_eq_false h⟩

theorem yields_expect {c d : Cursor} {t : Token} {kind : TokenKind} (message : String)
    (h : c.Passes [t] d) (ht : t.kind = kind) : Yields (expect kind message) c t [] d :=
  ⟨[], Note.misplaced_nil, expect_of_passes message h ht⟩

theorem fails_expect {c : Cursor} {kind : TokenKind} (message : String)
    (h : c.isAt [kind] = false) :
    Fails (expect kind message) c (.expectedToken kind.text message) [] c :=
  ⟨[], Note.misplaced_nil, expect_of_isAt_eq_false message h⟩

/-! ### Repetitions -/

section Many

variable {p : Parse (Option α)} {c d e : Cursor} {a : α}

theorem many_of_none {notes : List Note} (h : p c = ⟨.ok none, d, notes⟩) :
    many p c = ⟨.ok [], d, notes⟩ := by
  rw [many, h]

theorem many_of_error {f : Fault} {notes : List Note} (h : p c = ⟨.error f, d, notes⟩) :
    many p c = ⟨.error f, d, notes⟩ := by
  rw [many, h]

theorem many_of_some {notes : List Note} (h : p c = ⟨.ok (some a), d, notes⟩)
    (hd : d.rest.length < c.rest.length) :
    many p c =
      ⟨(many p d).result.map (a :: ·), (many p d).cursor, notes ++ (many p d).notes⟩ := by
  rw [many, h]
  simp only [hd, ↓reduceIte]

theorem many_of_stuck {notes : List Note} (h : p c = ⟨.ok (some a), d, notes⟩)
    (hd : ¬d.rest.length < c.rest.length) : many p c = ⟨.ok [a], d, notes⟩ := by
  rw [many, h]
  simp only [hd, ↓reduceIte]

theorem Yields.many_nil {bad : List Token} (h : Yields p c none bad d) :
    Yields (many p) c [] bad d := by
  obtain ⟨notes, hn, hc⟩ := h
  exact ⟨notes, hn, many_of_none hc⟩

theorem Yields.many_cons {as : List α} {bad bad' : List Token} (h : Yields p c (some a) bad d)
    (hd : d.rest.length < c.rest.length) (hs : Yields (many p) d as bad' e) :
    Yields (many p) c (a :: as) (bad ++ bad') e := by
  obtain ⟨notes, hn, hc⟩ := h
  obtain ⟨notes', hn', hd'⟩ := hs
  refine ⟨notes ++ notes', hn.append hn', ?_⟩
  rw [many_of_some hc hd, hd']
  rfl

theorem Fails.many {cause : Cause} {bad : List Token} (h : Fails p c cause bad d) :
    Fails (many p) c cause bad d := by
  obtain ⟨notes, hn, hc⟩ := h
  exact ⟨notes, hn, many_of_error hc⟩

theorem Yields.many_fails {cause : Cause} {bad bad' : List Token} (h : Yields p c (some a) bad d)
    (hd : d.rest.length < c.rest.length) (hs : Fails (Parse.many p) d cause bad' e) :
    Fails (Parse.many p) c cause (bad ++ bad') e := by
  obtain ⟨notes, hn, hc⟩ := h
  obtain ⟨notes', hn', hd'⟩ := hs
  refine ⟨notes ++ notes', hn.append hn', ?_⟩
  rw [many_of_some hc hd, hd']
  rfl

/-- Items in a row are read one after the other, and then the repetition goes on. -/
theorem many_of_row {item : List Token → α → List Token → Prop}
    (hne : ∀ {ts a bad}, item ts a bad → ts ≠ [])
    (hp : ∀ {ts a bad c d}, item ts a bad → c.Passes ts d → Yields p c (some a) bad d)
    {ts : List Token} {as : List α} {bad : List Token} (h : Tolerant.Row item ts as bad)
    (hc : c.Passes ts d) : ∃ notes, Note.Misplaced notes bad ∧
      many p c =
        ⟨(many p d).result.map (as ++ ·), (many p d).cursor, notes ++ (many p d).notes⟩ := by
  induction h generalizing c with
  | nil =>
    rw [hc.eq_of_nil]
    refine ⟨[], Note.misplaced_nil, ?_⟩
    rcases many p c with ⟨f | as, d, notes⟩ <;> rfl
  | @cons _ a _ _ as _ h hs ih =>
    obtain ⟨e, hce, hed⟩ := Cursor.passes_append_iff.1 hc
    have hlen : e.rest.length < c.rest.length := by
      have := List.length_pos_iff.2 (hne h)
      rw [hce.length_rest]
      omega
    obtain ⟨notes, hn, hrun⟩ := hp h hce
    obtain ⟨notes', hn', hrun'⟩ := ih hed
    refine ⟨notes ++ notes', hn.append hn', ?_⟩
    rw [many_of_some hrun hlen, hrun', List.append_assoc]
    rcases many p d with ⟨f | as, d, notes⟩ <;> rfl

/-- Items in a row are repeated up to the place where the production gives nothing. -/
theorem yields_many {item : List Token → α → List Token → Prop}
    (hne : ∀ {ts a bad}, item ts a bad → ts ≠ [])
    (hp : ∀ {ts a bad c d}, item ts a bad → c.Passes ts d → Yields p c (some a) bad d)
    {ts : List Token} {as : List α} {bad : List Token} (h : Tolerant.Row item ts as bad)
    (hc : c.Passes ts d) (hstop : Yields p d none [] d) : Yields (many p) c as bad d := by
  obtain ⟨notes, hn, hrun⟩ := many_of_row hne hp h hc
  obtain ⟨notes', hn', hrun'⟩ := hstop.many_nil
  have key := hn.append hn'
  rw [List.append_nil] at key
  refine ⟨_, key, ?_⟩
  rw [hrun, hrun']
  simp [Except.map]

end Many

/-! ### First panics -/

theorem Yields.firstPanic?_eq_none {p : Parse α} {c d : Cursor} {a : α} {bad : List Token}
    (h : Yields p c a bad d) : (p c).firstPanic? = none := by
  obtain ⟨notes, hn, hc⟩ := h
  rw [hc]
  simp [Outcome.firstPanic?, hn.firstPanic?_eq_none]

theorem Fails.firstPanic?_eq {p : Parse α} {c d : Cursor} {cause : Cause} {bad : List Token}
    (h : Fails p c cause bad d) (hc : cause.isPanic = true) :
    (p c).firstPanic? = some ⟨cause, d.site⟩ := by
  obtain ⟨notes, hn, hp⟩ := h
  rw [hp]
  simp [Outcome.firstPanic?, hn.firstPanic?_eq_none, hc]

theorem firstPanic?_bind {p : Parse α} {c : Cursor} {f : Fault}
    (h : (p c).firstPanic? = some f) (g : α → Parse β) : ((p >>= g) c).firstPanic? = some f := by
  rcases hc : p c with ⟨e | a, d, notes⟩ <;> rw [hc] at h
  · rw [bind_apply_of_error hc]
    exact h
  · rw [bind_apply_of_ok hc]
    simp only [Outcome.firstPanic?, Option.or_none] at h
    simp [Outcome.firstPanic?, Note.firstPanic?_append, h]

theorem Yields.firstPanic?_bind {p : Parse α} {g : α → Parse β} {c d : Cursor} {a : α}
    {bad : List Token} (h : Yields p c a bad d) :
    ((p >>= g) c).firstPanic? = (g a d).firstPanic? := by
  obtain ⟨notes, hn, hc⟩ := h
  rw [bind_apply_of_ok hc]
  simp [Outcome.firstPanic?, Note.firstPanic?_append, hn.firstPanic?_eq_none]

theorem firstPanic?_many {p : Parse (Option α)} {c : Cursor} {f : Fault}
    (h : (p c).firstPanic? = some f) : (many p c).firstPanic? = some f := by
  rcases hc : p c with ⟨e | _ | a, d, notes⟩ <;> rw [hc] at h
  · rw [many_of_error hc]
    exact h
  · rw [many_of_none hc]
    exact h
  · simp only [Outcome.firstPanic?, Option.or_none] at h
    by_cases hd : d.rest.length < c.rest.length
    · rw [many_of_some hc hd]
      simp [Outcome.firstPanic?, Note.firstPanic?_append, h]
    · rw [many_of_stuck hc hd]
      simp [Outcome.firstPanic?, h]

theorem Yields.firstPanic?_many {p : Parse (Option α)} {c d : Cursor} {a : α} {bad : List Token}
    (h : Yields p c (some a) bad d) (hd : d.rest.length < c.rest.length) :
    (many p c).firstPanic? = (many p d).firstPanic? := by
  obtain ⟨notes, hn, hc⟩ := h
  rw [many_of_some hc hd]
  simp only [Outcome.firstPanic?, Note.firstPanic?_append, hn.firstPanic?_eq_none, Option.none_or]
  cases (many p d).result <;> rfl

end Parse

end Lox
