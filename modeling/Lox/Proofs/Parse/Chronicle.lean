import Lox.Proofs.Cursor.Stream
import Lox.Proofs.Parse.Relation
import Lox.Proofs.Parse.Stream

/-!
# Chronicles

What a production notes between two cursors is a chronicle of faults and recoveries.  A panic that
is noted comes with the recovery from the very token where it was found, and a misplaced equals sign
is noted behind what was noted on its value.  Every production leaves a chronicle
(`chronicled_program`).  The key facts: the recoveries start at the panics
(`Chronicle.map_start_recoveries`), none starts before the one in front of it has come to its end
(`Chronicle.pairwise_recoveries`), and no token has two faults unless it is the end of input
(`Chronicle.pairwise_faults`).  What is noted on a stream are faults in the syntax, each at a token
of the stream (`TokenStream.faults_parse`).
-/

namespace Lox

/-! ### Recoveries -/

/-- Reading was given up at the token of the number `start` and went on at that of the number
`stop`, which is on the line `line`. -/
structure Recovery where
  start : Nat
  stop : Nat
  line : UInt32
deriving DecidableEq

namespace Recovery

def note (r : Recovery) : Note :=
  .synchronized r.start r.stop r.line

def logLine (r : Recovery) : LogLine :=
  ⟨.debug, "synchronized from token " ++ toString r.start ++ " to token " ++ toString r.stop ++
    " (line " ++ toString r.line ++ ")"⟩

end Recovery

/-- The recovery from the current token. -/
def Cursor.recovery (c : Cursor) : Recovery :=
  ⟨c.index, c.synchronize.index, c.synchronize.current.line⟩

namespace Cursor.Ended

variable {c : Cursor}

/-- In front of the end a recovery leaves its first token behind. -/
theorem start_lt_stop (hc : c.Ended) (hk : c.current.kind ≠ .eof) :
    c.recovery.start < c.recovery.stop := by
  refine index_lt_of_advance_le ?_ c.advance_le_synchronize
  rwa [← Bool.not_eq_true, ← hc.current_kind_iff]

theorem stop_eq_start (hc : c.Ended) (hk : c.current.kind = .eof) :
    c.recovery.stop = c.recovery.start := by
  rw [recovery, synchronize_of_atEnd (hc.current_kind_iff.1 hk)]

end Cursor.Ended

namespace Note

def recovery? : Note → Option Recovery
  | fault _ => none
  | synchronized start stop line => some ⟨start, stop, line⟩

def recoveries (notes : List Note) : List Recovery :=
  notes.filterMap recovery?

def panics (notes : List Note) : List Fault :=
  (faults notes).filter (·.cause.isPanic)

theorem recoveries_append (notes notes' : List Note) :
    recoveries (notes ++ notes') = recoveries notes ++ recoveries notes' := by
  simp [recoveries]

@[simp] theorem recoveries_append_fault (notes : List Note) (f : Fault) :
    recoveries (notes ++ [.fault f]) = recoveries notes := by
  rw [recoveries_append]
  exact List.append_nil _

theorem panics_append (notes notes' : List Note) :
    panics (notes ++ notes') = panics notes ++ panics notes' := by
  simp [panics, faults_append]

/-- What is logged on the way are the recoveries. -/
theorem filterMap_logLine? (notes : List Note) :
    notes.filterMap logLine? = (recoveries notes).map Recovery.logLine := by
  rw [recoveries, List.map_filterMap]
  congr 1
  funext n
  cases n <;> rfl

end Note

/-! ### Chronicles -/

/-- Between the cursors the notes were taken, in this order. -/
inductive Chronicle : Cursor → List Note → Cursor → Prop
  | move {c d} (h : c ≤ d) : Chronicle c [] d
  | append {c d e notes notes'} (h : Chronicle c notes d) (h' : Chronicle d notes' e) :
      Chronicle c (notes ++ notes') e
  | misplaced {c d notes} (hc : c.isAt [.assignment] = true) (h : Chronicle c.advance notes d) :
      Chronicle c (notes ++ [.fault ⟨.invalidAssignmentTarget, c.site⟩]) d
  | recovery {c cause} (hs : cause.isSyntactic = true) (hp : cause.isPanic = true) :
      Chronicle c [.fault ⟨cause, c.site⟩, c.recovery.note] c.synchronize

/-- A fault in the syntax was found between the cursors, at a token that is passed. -/
def Fault.FoundBetween (c d : Cursor) (f : Fault) : Prop :=
  f.cause.isSyntactic = true ∧ ∃ b : Cursor, c ≤ b ∧ b.advance ≤ d ∧ f.site = b.site ∧
    (f.cause.isPanic = false → b.isAt [.assignment] = true)

/-- The recovery took place between the cursors. -/
def Recovery.Between (c d : Cursor) (r : Recovery) : Prop :=
  ∃ b : Cursor, c ≤ b ∧ b.synchronize ≤ d ∧ r = b.recovery

theorem Fault.FoundBetween.mono {c c' d d' : Cursor} {f : Fault} (h : f.FoundBetween c d)
    (hc : c' ≤ c) (hd : d ≤ d') : f.FoundBetween c' d' := by
  obtain ⟨hs, b, hcb, hbd, hf⟩ := h
  exact ⟨hs, b, Cursor.le_trans hc hcb, Cursor.le_trans hbd hd, hf⟩

theorem Recovery.Between.mono {c c' d d' : Cursor} {r : Recovery} (h : r.Between c d)
    (hc : c' ≤ c) (hd : d ≤ d') : r.Between c' d' := by
  obtain ⟨b, hcb, hbd, hr⟩ := h
  exact ⟨b, Cursor.le_trans hc hcb, Cursor.le_trans hbd hd, hr⟩

namespace Recovery.Between

variable {c d : Cursor} {r : Recovery}

theorem index_le_start (h : r.Between c d) : c.index ≤ r.start := by
  obtain ⟨b, hcb, -, rfl⟩ := h
  exact Cursor.index_le_of_le hcb

theorem stop_le_index (h : r.Between c d) : r.stop ≤ d.index := by
  obtain ⟨b, -, hbd, rfl⟩ := h
  exact Cursor.index_le_of_le hbd

end Recovery.Between

namespace Fault.FoundBetween

variable {c d : Cursor} {f : Fault}

theorem index_le (h : f.FoundBetween c d) : c.index ≤ f.site.index := by
  obtain ⟨-, b, hcb, -, hf, -⟩ := h
  rw [hf]
  exact Cursor.index_le_of_le hcb

theorem index_le_index (h : f.FoundBetween c d) : f.site.index ≤ d.index := by
  obtain ⟨-, b, -, hbd, hf, -⟩ := h
  rw [hf]
  exact Cursor.index_le_of_le (Cursor.le_trans b.le_advance hbd)

/-- If the fault is not at the end, its token is passed. -/
theorem index_lt (h : f.FoundBetween c d) (hc : c.Ended) (hf : f.site.token.kind ≠ .eof) :
    f.site.index < d.index := by
  obtain ⟨-, b, hcb, hbd, hsite, -⟩ := h
  rw [hsite] at hf ⊢
  refine Cursor.index_lt_of_advance_le ?_ hbd
  rwa [← Bool.not_eq_true, ← (hc.of_le hcb).current_kind_iff]

/-- What is found in front of a token that is not the end is not found at the end. -/
theorem kind_ne_of_atEnd_eq_false (h : f.FoundBetween c d) (hc : c.Ended) (hd : d.atEnd = false) :
    f.site.token.kind ≠ .eof := by
  obtain ⟨-, b, hcb, hbd, hsite, -⟩ := h
  rw [hsite]
  intro hb
  have hend := (hc.of_le hcb).current_kind_iff.1 hb
  rw [Cursor.atEnd_of_le (Cursor.le_trans b.le_advance hbd) hend] at hd
  cases hd

/-- What is noted without a panic is an equals sign. -/
theorem kind_of_isPanic_eq_false (h : f.FoundBetween c d) (hf : f.cause.isPanic = false) :
    f.site.token.kind = .assignment := by
  obtain ⟨-, b, -, -, hsite, hb⟩ := h
  obtain ⟨t, ht, hpass⟩ := Cursor.exists_passes_of_isAt (hb hf)
  rw [hsite]
  show b.current.kind = .assignment
  rw [hpass.current_eq]
  exact List.mem_singleton.1 ht

end Fault.FoundBetween

namespace Chronicle

variable {c d : Cursor} {notes : List Note}

theorem le (h : Chronicle c notes d) : c ≤ d := by
  induction h with
  | move h => exact h
  | append _ _ ih ih' => exact Cursor.le_trans ih ih'
  | @misplaced c _ _ _ _ ih => exact Cursor.le_trans c.le_advance ih
  | @recovery c => exact c.le_synchronize

theorem of_le {e : Cursor} (h : c ≤ d) (h' : Chronicle d notes e) : Chronicle c notes e :=
  (Chronicle.append (.move h) h' :)

theorem foundBetween (h : Chronicle c notes d) {f : Fault} (hf : f ∈ Note.faults notes) :
    f.FoundBetween c d := by
  induction h with
  | move => simp [Note.faults] at hf
  | append h h' ih ih' =>
    rw [Note.faults_append, List.mem_append] at hf
    rcases hf with hf | hf
    · exact (ih hf).mono (Cursor.le_refl _) h'.le
    · exact (ih' hf).mono h.le (Cursor.le_refl _)
  | @misplaced c d notes hc h ih =>
    rw [Note.faults_append, List.mem_append] at hf
    rcases hf with hf | hf
    · exact (ih hf).mono c.le_advance (Cursor.le_refl _)
    · rw [List.mem_singleton.1 hf]
      exact ⟨rfl, c, c.le_refl, h.le, rfl, fun _ => hc⟩
  | @recovery c cause hs hp =>
    rw [List.mem_singleton.1 hf]
    exact ⟨hs, c, c.le_refl, c.advance_le_synchronize, rfl, by simp [hp]⟩

theorem between (h : Chronicle c notes d) {r : Recovery} (hr : r ∈ Note.recoveries notes) :
    r.Between c d := by
  induction h with
  | move => simp [Note.recoveries] at hr
  | append h h' ih ih' =>
    rw [Note.recoveries_append, List.mem_append] at hr
    rcases hr with hr | hr
    · exact (ih hr).mono (Cursor.le_refl _) h'.le
    · exact (ih' hr).mono h.le (Cursor.le_refl _)
  | @misplaced c d notes hc h ih =>
    rw [Note.recoveries_append_fault] at hr
    exact (ih hr).mono c.le_advance (Cursor.le_refl _)
  | @recovery c =>
    rw [List.mem_singleton.1 hr]
    exact ⟨c, c.le_refl, Cursor.le_refl _, rfl⟩

/-- There is one recovery for each panic, from the token where it was found. -/
theorem map_start_recoveries (h : Chronicle c notes d) :
    (Note.recoveries notes).map Recovery.start = (Note.panics notes).map (·.site.index) := by
  induction h with
  | move => rfl
  | append _ _ ih ih' =>
    rw [Note.recoveries_append, Note.panics_append, List.map_append, List.map_append, ih, ih']
  | misplaced _ _ ih =>
    rw [Note.recoveries_append_fault, Note.panics_append, List.map_append, ih]
    exact (List.append_nil _).symm
  | @recovery c cause _ hp =>
    have hpanics : Note.panics [.fault ⟨cause, c.site⟩, c.recovery.note] = [⟨cause, c.site⟩] :=
      List.filter_cons_of_pos hp
    rw [hpanics]
    rfl

theorem pairwise_recoveries (h : Chronicle c notes d) :
    (Note.recoveries notes).Pairwise fun r r' => r.stop ≤ r'.start := by
  induction h with
  | move => exact .nil
  | append h h' ih ih' =>
    rw [Note.recoveries_append, List.pairwise_append]
    exact ⟨ih, ih', fun r hr r' hr' =>
      Nat.le_trans (h.between hr).stop_le_index (h'.between hr').index_le_start⟩
  | misplaced _ _ ih =>
    rwa [Note.recoveries_append_fault]
  | recovery => exact List.pairwise_singleton ..

theorem pairwise_faults (h : Chronicle c notes d) (hc : c.Ended) :
    (Note.faults notes).Pairwise fun f g =>
      f.site.index = g.site.index → f.site.token.kind = .eof := by
  induction h with
  | move => exact .nil
  | append h h' ih ih' =>
    rw [Note.faults_append, List.pairwise_append]
    refine ⟨ih hc, ih' (hc.of_le h.le), fun f hf g hg hfg => ?_⟩
    by_contra hk
    have hlt := (h.foundBetween hf).index_lt hc hk
    have hle := (h'.foundBetween hg).index_le
    omega
  | @misplaced c d notes hequals h ih =>
    have hadvance := hc.of_le c.le_advance
    have hend := Cursor.atEnd_eq_false_of_isAt hequals
    rw [Note.faults_append, List.pairwise_append]
    refine ⟨ih hadvance, List.pairwise_singleton .., fun f hf g hg hfg => ?_⟩
    -- what was noted on the value stands behind the equals sign
    have hlt := Cursor.index_lt_of_advance_le hend c.advance.le_refl
    have hle := (h.foundBetween hf).index_le
    rw [List.mem_singleton.1 hg] at hfg
    exact absurd hfg (Nat.ne_of_gt (Nat.lt_of_lt_of_le hlt hle))
  | recovery => exact List.pairwise_singleton ..

end Chronicle

/-! ### The chronicles of productions -/

/-- What was noted from `c` on is a chronicle, and a fault that was not noted is a panic in the
syntax at the current token. -/
structure Outcome.Chronicled {α : Type} (c : Cursor) (o : Outcome α) : Prop where
  notes : Chronicle c o.notes o.cursor
  fault : ∀ f, o.result = .error f →
    f.cause.isSyntactic = true ∧ f.cause.isPanic = true ∧ f.site = o.cursor.site

namespace Parse

variable {α β : Type}

def Chronicled (p : Parse α) : Prop :=
  ∀ c : Cursor, (p c).Chronicled c

/-- A step without a fault. -/
private theorem chronicled_of_ok {p : Parse α}
    (hp : ∀ c, ∃ a d, c ≤ d ∧ p c = ⟨.ok a, d, []⟩) : Chronicled p := by
  intro c
  obtain ⟨a, d, hd, hrun⟩ := hp c
  rw [hrun]
  exact ⟨.move hd, by simp⟩

theorem chronicled_pure (a : α) : Chronicled (pure a) :=
  chronicled_of_ok fun c => ⟨a, c, c.le_refl, rfl⟩

theorem Chronicled.bind {p : Parse α} {f : α → Parse β} (hp : Chronicled p)
    (hf : ∀ a, Chronicled (f a)) : Chronicled (p >>= f) := by
  intro c
  have h := hp c
  rcases hrun : p c with ⟨e | a, d, notes⟩ <;> rw [hrun] at h
  · rw [bind_apply_of_error hrun]
    exact ⟨h.notes, by rintro f ⟨⟩; exact h.fault e rfl⟩
  · rw [bind_apply_of_ok hrun]
    have h' := hf a d
    exact ⟨.append h.notes h'.notes, h'.fault⟩

theorem chronicled_accept (kinds : List TokenKind) : Chronicled (accept kinds) :=
  chronicled_of_ok fun c => by
    cases hk : c.isAt kinds with
    | false => exact ⟨none, c, c.le_refl, accept_of_isAt_eq_false hk⟩
    | true => exact ⟨some c.site, c.advance, c.le_advance, by rw [accept, if_pos hk]⟩

theorem chronicled_refuse {cause : Cause} (hs : cause.isSyntactic = true)
    (hp : cause.isPanic = true) : Chronicled (refuse cause : Parse α) := by
  intro c
  refine ⟨.move c.le_refl, ?_⟩
  rintro f ⟨⟩
  exact ⟨hs, hp, rfl⟩

/-- The value is read before the equals sign is noted. -/
private theorem chronicled_keeping {value : Parse Expr} (hv : Chronicled value) (target : Expr)
    {d : Cursor} (hd : d.isAt [.assignment] = true) :
    ((value >>= fun _ => keeping target d.site) d.advance).Chronicled d := by
  have h := hv d.advance
  rcases hrun : value d.advance with ⟨e | v, f, notes⟩ <;> rw [hrun] at h
  · rw [bind_apply_of_error hrun]
    exact ⟨.of_le d.le_advance h.notes, by rintro f ⟨⟩; exact h.fault e rfl⟩
  · have hkeep : keeping target d.site f =
        ⟨.ok target, f, [.fault ⟨.invalidAssignmentTarget, d.site⟩]⟩ := rfl
    rw [bind_apply_of_ok hrun, hkeep]
    have key : Chronicle d (notes ++ [.fault ⟨.invalidAssignmentTarget, d.site⟩]) f :=
      .misplaced hd h.notes
    refine ⟨key, ?_⟩
    rintro f ⟨⟩

private theorem chronicled_assigning {value : Parse Expr} (hv : Chronicled value) (target : Expr)
    {d : Cursor} (hd : d.isAt [.assignment] = true) :
    ((value >>= assigning target d.site) d.advance).Chronicled d := by
  cases target with
  | var name =>
    have key := (hv.bind fun v => chronicled_pure (Expr.assign name v)) d.advance
    exact ⟨.of_le d.le_advance key.notes, key.fault⟩
  | _ => exact chronicled_keeping hv _ hd

theorem Chronicled.assigned {target value : Parse Expr} (ht : Chronicled target)
    (hv : Chronicled value) : Chronicled (assigned target value) := by
  refine ht.bind fun e d => ?_
  cases hk : d.isAt [.assignment] with
  | false =>
    rw [bind_apply_of_ok (accept_of_isAt_eq_false hk)]
    exact chronicled_pure e d
  | true =>
    have hrun : accept [.assignment] d = ⟨.ok (some d.site), d.advance, []⟩ := by
      rw [accept, if_pos hk]
    rw [bind_apply_of_ok hrun]
    exact chronicled_assigning hv e hk

theorem Chronicled.many {p : Parse (Option α)} (hp : Chronicled p) : Chronicled (many p) := by
  intro c
  have h := hp c
  fun_induction Parse.many p c with
  | case1 c a d notes hrun _ o ih =>
    rw [hrun] at h
    have h' : o.Chronicled d := ih (hp d)
    refine ⟨.append h.notes h'.notes, fun f hf => h'.fault f ?_⟩
    cases hres : o.result <;> rw [hres] at hf <;> cases hf
    rfl
  | case2 c a d notes hrun _ =>
    rw [hrun] at h
    exact ⟨h.notes, by simp⟩
  | case3 c d notes hrun =>
    rw [hrun] at h
    exact ⟨h.notes, by simp⟩
  | case4 c f d notes hrun =>
    rw [hrun] at h
    exact ⟨h.notes, by rintro f ⟨⟩; exact h.fault f rfl⟩

/-- The fault that the production ends with is noted, and the recovery from it. -/
theorem Chronicled.recovering {p : Parse Stmt} (hp : Chronicled p) :
    Chronicled (recovering p) := by
  intro c
  have h := hp c
  rcases hrun : p c with ⟨e | a, d, notes⟩ <;> rw [hrun] at h
  · rw [recovering_of_error hrun]
    obtain ⟨hs, hp, hsite⟩ := h.fault e rfl
    have he : e = ⟨e.cause, d.site⟩ := by rw [← hsite]
    rw [he]
    exact ⟨.append h.notes (.recovery hs hp), by simp⟩
  · rw [recovering_of_ok hrun]
    exact ⟨h.notes, by simp⟩

theorem respects_chronicled : Respects (fun p _ => Chronicled p) where
  pure := chronicled_pure
  bind := Chronicled.bind
  here := chronicled_of_ok fun c => ⟨_, c, c.le_refl, rfl⟩
  skip := chronicled_of_ok fun c => ⟨(), _, c.le_advance, rfl⟩
  isAt _ := chronicled_of_ok fun c => ⟨_, c, c.le_refl, rfl⟩
  atEnd := chronicled_of_ok fun c => ⟨_, c, c.le_refl, rfl⟩
  accept_bind kinds hnone hsome := by
    refine (chronicled_accept kinds).bind ?_
    rintro (_ | s)
    · exact hnone
    · exact hsome s s rfl
  refuse := chronicled_refuse
  assigned := Chronicled.assigned
  many := Chronicled.many
  recovering := Chronicled.recovering

theorem chronicled_program (room : Nat) : Chronicled (program .standard room) :=
  respects_chronicled.program (.refl room)

end Parse

namespace TokenStream

theorem chronicle_parse (s : TokenStream) : ∃ d, Chronicle s.cursor s.parse.notes d := by
  obtain ⟨d, hrun⟩ := s.exists_run
  have key := (Parse.chronicled_program Parse.maxNesting s.cursor).notes
  rw [hrun] at key
  exact ⟨d, key⟩

/-- What is noted on a stream are faults in the syntax, each at a token of the stream. -/
theorem faults_parse (s : TokenStream) {f : Fault} (hf : f ∈ Note.faults s.parse.notes) :
    f.cause.isSyntactic = true ∧ s.toList[f.site.index]? = some f.site.token := by
  obtain ⟨d, hchronicle⟩ := s.chronicle_parse
  obtain ⟨hs, b, hb, -, hsite, -⟩ := hchronicle.foundBetween hf
  rw [hsite]
  exact ⟨hs, getElem?_toList_of_le hb⟩

/-- What is noted without a panic is an equals sign. -/
theorem kind_of_faults_parse (s : TokenStream) {f : Fault} (hf : f ∈ Note.faults s.parse.notes)
    (hp : f.cause.isPanic = false) : f.site.token.kind = .assignment := by
  obtain ⟨d, hchronicle⟩ := s.chronicle_parse
  exact (hchronicle.foundBetween hf).kind_of_isPanic_eq_false hp

end TokenStream

end Lox
