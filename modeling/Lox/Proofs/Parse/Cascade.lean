import Lox.Proofs.Parse.Chronicle
import Lox.Proofs.Parse.Recovery

/-!
# How many faults one statement has

A panic ends a statement: if there are no braces in it, nothing is noted behind the panic, and the
parser goes on behind the semicolon.  A misplaced equals sign does not end it, so several of them
may be noted, but each of them once and all of them in front of the panic.  The key fact:
`faults_statement`, which bounds the faults of a statement in this way.
-/

namespace Lox

open Parse

namespace TokenStream

/-- The faults of the stream are the equals signs `noted`, each of them once, and behind them at
most one panic. -/
structure FaultsBounded (s : TokenStream) (noted : List Fault) (last? : Option Fault) : Prop where
  faults : Note.faults s.parse.notes = noted ++ last?.toList
  panic : ∀ f ∈ last?, f.cause.isPanic = true
  misplaced : ∀ f ∈ noted, f.cause = .invalidAssignmentTarget ∧ f.site.token.kind = .assignment ∧
    s.toList[f.site.index]? = some f.site.token
  once : (noted.map (·.site.index)).Nodup

/-- If there is no panic but at the end, what is noted in front of it are equals signs. -/
theorem FaultsBounded.of_faults {s : TokenStream} {noted : List Fault} {last? : Option Fault}
    (hfaults : Note.faults s.parse.notes = noted ++ last?.toList)
    (hlast : ∀ f ∈ last?, f.cause.isPanic = true) (hnoted : ∀ f ∈ noted, f.cause.isPanic = false) :
    s.FaultsBounded noted last? := by
  have hmem : ∀ f ∈ noted, f ∈ Note.faults s.parse.notes := by
    intro f hf
    rw [hfaults]
    exact List.mem_append_left _ hf
  have hkind : ∀ f ∈ noted, f.site.token.kind = .assignment :=
    fun f hf => s.kind_of_faults_parse (hmem f hf) (hnoted f hf)
  refine ⟨hfaults, hlast, fun f hf => ⟨?_, hkind f hf, (s.faults_parse (hmem f hf)).2⟩, ?_⟩
  · simpa [Cause.isPanic] using hnoted f hf
  · obtain ⟨d, hchronicle⟩ := s.chronicle_parse
    have hpairwise := hchronicle.pairwise_faults s.ended_cursor
    rw [hfaults] at hpairwise
    refine List.pairwise_map.2 ((List.pairwise_append.1 hpairwise).1.imp_of_mem ?_)
    intro f g hf _ hfg hindex
    -- only the end of input can have two faults, and it is no equals sign
    have heof := hfg hindex
    rw [hkind f hf] at heof
    cases heof

section Statement

variable {B : List Token} {s e : Token} (he : e.kind = .eof)

/-- A declaration has no panic. -/
private theorem faultsBounded_of_declaration (hs : s.kind = .semicolon) (hB : Unbroken B)
    {stmt : Stmt} {bad : List Token}
    (hdecl : Tolerant.Declaration maxNesting (B ++ [s]) stmt bad) :
    ∃ noted last?, (TokenStream.mk (B ++ [s]) e he).FaultsBounded noted last? := by
  have hprogram : Tolerant.Program [] maxNesting (B ++ [s]) [stmt] bad :=
    hdecl.program fun _ _ => List.not_mem_nil
  obtain ⟨-, hnotes⟩ :=
    parse_of_program (s := ⟨B ++ [s], e, he⟩) (hB.kind_ne_eof hs) hprogram
  refine ⟨_, none, .of_faults (List.append_nil _).symm ?_ hnotes.not_isPanic⟩
  rintro f ⟨⟩

/-- What is left out has one panic, behind everything else. -/
private theorem faultsBounded_of_not_declaration (hs : s.kind = .semicolon) (hl : s.literal = none)
    (hB : Unbroken B) (hno : ∀ stmt bad, ¬Tolerant.Declaration maxNesting (B ++ [s]) stmt bad) :
    ∃ noted last?, (TokenStream.mk (B ++ [s]) e he).FaultsBounded noted last? := by
  obtain ⟨bad, cause, t, hc, hreads⟩ := exists_reads hB hs hl hno
  have hreads : Reads maxNesting (B ++ [s]) [] (Note.Isolated · [] bad cause t []) := by
    have key := hreads .nil .nil
    rwa [List.nil_append, List.append_nil] at key
  obtain ⟨-, n₁, n, n₂, hn₁, hn, hn₂, hnotes⟩ :=
    parse_of_reads (s := ⟨B ++ [s], e, he⟩) (hB.kind_ne_eof hs) hreads
  obtain ⟨noted, f, hf, hp, hnoted⟩ := hn.faults_eq hc
  refine ⟨noted, some f, .of_faults ?_ (by simpa using hp) hnoted⟩
  rw [hnotes, hn₁.eq_nil, hn₂.eq_nil, List.nil_append, List.append_nil, hf]
  rfl

/-- A statement without braces has at most one panic, and behind it nothing is noted.  What is noted
in front of it are misplaced equals signs, no two at the same token. -/
theorem faults_statement (hs : s.kind = .semicolon) (hl : s.literal = none) (hB : Unbroken B) :
    ∃ noted last?, (TokenStream.mk (B ++ [s]) e he).FaultsBounded noted last? := by
  by_cases hdecl : ∃ stmt bad, Tolerant.Declaration maxNesting (B ++ [s]) stmt bad
  · obtain ⟨stmt, bad, hdecl⟩ := hdecl
    exact faultsBounded_of_declaration he hs hB hdecl
  · have hno : ∀ stmt bad, ¬Tolerant.Declaration maxNesting (B ++ [s]) stmt bad :=
      fun stmt bad h => hdecl ⟨stmt, bad, h⟩
    exact faultsBounded_of_not_declaration he hs hl hB hno

/-- The statement `nil = nil nil;` has a misplaced equals sign, and a semicolon is missing. -/
theorem faults_statement_nil_equals :
    let B := [Token.plain .kwNil, .plain .assignment, .plain .kwNil, .plain .kwNil]
    let S : TokenStream := ⟨B ++ [.plain .semicolon], .plain .eof, rfl⟩
    Unbroken B ∧ ∃ noted last?, S.FaultsBounded noted last? := by
  intro B S
  have hB : Unbroken B := ⟨by decide, by decide⟩
  exact ⟨hB, faults_statement rfl rfl rfl hB⟩

/-- Behind a misplaced equals sign the same statement may have a panic. -/
theorem not_faults_statement_le_one :
    let B := [Token.plain .kwNil, .plain .assignment, .plain .kwNil, .plain .kwNil]
    let S : TokenStream := ⟨B ++ [.plain .semicolon], .plain .eof, rfl⟩
    S.WellFormed ∧ Unbroken B ∧ ¬S.parse.diagnostics.length ≤ 1 := by
  intro B S
  refine ⟨⟨by decide, rfl⟩, ⟨by decide, by decide⟩, ?_⟩
  decide +kernel

end Statement

end TokenStream

end Lox
