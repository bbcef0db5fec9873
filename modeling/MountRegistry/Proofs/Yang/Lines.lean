import MountRegistry.Proofs.Yang.Declaration
import MountRegistry.Proofs.Yang.Layout

/-
  The lines that are recorded. The lexer counts every line feed, in quotes and comments too, but
  those that a backslash takes in double quotes: after such a one all lines are too low by one
  (`recorded_lineAfter`). What is wrong with a source shows at one of its tokens, and the line of a
  diagnostic is the one recorded for that token (`Module.parse_eq_error`).
-/

namespace MountRegistry.Yang

namespace Lexer

variable {ps before : List Piece} {text : List Char} {line : Nat} {t : Lined Token}
  {earlier later : List (Lined Token)}

/-! ## Line feeds that are counted and line feeds that are taken -/

/-- The line feeds of a piece that a backslash takes. -/
def Piece.taken : Piece → Nat
  | quoted _ letters => letters.count (.escaped '\n')
  | _ => 0

/-- The line feeds that backslashes take, in all pieces. -/
def takenIn : List Piece → Nat
  | [] => 0
  | p :: ps => p.taken + takenIn ps

theorem Letter.feeds_add_taken (l : Letter) :
    [l].count (.plain '\n') + [l].count (.escaped '\n') = l.text.count '\n' := by
  cases l with
  | plain c => by_cases hc : c = '\n' <;> simp [Letter.text, hc]
  | escaped c => by_cases hc : c = '\n' <;> simp [Letter.text, hc]

theorem feeds_add_taken_letters (letters : List Letter) :
    letters.count (.plain '\n') + letters.count (.escaped '\n') =
      (letters.flatMap Letter.text).count '\n' := by
  induction letters with
  | nil => rfl
  | cons l letters ih =>
    have hl := l.feeds_add_taken
    rw [List.flatMap_cons, List.count_append, ← List.singleton_append, List.count_append,
      List.count_append]
    omega

theorem Piece.feeds_add_taken (p : Piece) : p.feeds + p.taken = p.text.count '\n' := by
  cases p with
  | quoted style letters =>
    have hmark : [style.mark].count '\n' = 0 := by cases style <;> rfl
    have hletters := feeds_add_taken_letters letters
    rw [Piece.text, List.count_append, List.count_append, hmark]
    simpa [Piece.feeds, Piece.taken] using hletters
  | _ => rfl

theorem lineAfter_add_taken (line : Nat) (ps : List Piece) :
    lineAfter line ps + takenIn ps = line + (textOf ps).count '\n' := by
  induction ps generalizing line with
  | nil => rfl
  | cons p ps ih =>
    have hp := p.feeds_add_taken
    have hps := ih (line + p.feeds)
    rw [lineAfter, takenIn, textOf_cons, List.count_append]
    omega

theorem Piece.taken_eq_zero_iff (p : Piece) :
    p.taken = 0 ↔ ∀ style letters, p = .quoted style letters → .escaped '\n' ∉ letters := by
  cases p with
  | quoted style letters =>
    rw [Piece.taken, List.count_eq_zero]
    constructor
    · rintro h _ _ ⟨rfl, rfl⟩
      exact h
    · intro h
      exact h style letters rfl
  | _ => simp [Piece.taken]

theorem takenIn_eq_zero_iff :
    takenIn ps = 0 ↔ ∀ style letters, .quoted style letters ∈ ps → .escaped '\n' ∉ letters := by
  have hforall : takenIn ps = 0 ↔ ∀ p ∈ ps, p.taken = 0 := by
    induction ps with
    | nil => simp [takenIn]
    | cons p ps ih => rw [takenIn, Nat.add_eq_zero_iff, ih, List.forall_mem_cons]
  simp only [hforall, Piece.taken_eq_zero_iff]
  constructor
  · intro h style letters hmem
    exact h _ hmem style letters rfl
  · rintro h _ hp style letters rfl
    exact h style letters hp

/-! ## What stands where -/

/-- `line` is recorded for what begins after these pieces of a text: it is one more than the line
feeds before that, less those that a backslash takes. -/
def Recorded (line : Nat) (before : List Piece) : Prop :=
  line + takenIn before = 1 + (textOf before).count '\n'

/-- In the text, the first character of this token comes right after these pieces. -/
def StandsAfter (text : List Char) (before : List Piece) (t : Token) : Prop :=
  ∃ p after o, Laid (before ++ p :: after) o ∧ textOf (before ++ p :: after) ++ o.text = text ∧
    p.token? = some t

theorem recorded_lineAfter (before : List Piece) : Recorded (lineAfter 1 before) before :=
  lineAfter_add_taken 1 before

/-- The line is the true one just if no string before has a line feed that a backslash takes. -/
theorem Recorded.exact_iff (h : Recorded line before) :
    line = 1 + (textOf before).count '\n' ↔
      ∀ style letters, .quoted style letters ∈ before → .escaped '\n' ∉ letters := by
  rw [← takenIn_eq_zero_iff]
  unfold Recorded at h
  omega

/-- A token of some pieces is the token of one of them, on the line after those before it. -/
theorem exists_of_located (h : located line ps = earlier ++ t :: later) :
    ∃ before p after, ps = before ++ p :: after ∧ p.token? = some t.value ∧
      located line before = earlier ∧ t.line = lineAfter line before := by
  induction ps generalizing line earlier with
  | nil => exact absurd h.symm (List.append_ne_nil_of_right_ne_nil _ (List.cons_ne_nil _ _))
  | cons p ps ih =>
    cases hp : p.token? with
    | none =>
      rw [located_of_none hp] at h
      obtain ⟨before, q, after, rfl, hq, hbefore, hline⟩ := ih h
      refine ⟨p :: before, q, after, rfl, hq, ?_, hline⟩
      rw [located_of_none hp, hbefore]
    | some value =>
      rw [located_of_some hp] at h
      cases earlier with
      | nil =>
        obtain ⟨rfl, -⟩ := List.cons.inj h
        exact ⟨[], p, ps, rfl, hp, rfl, rfl⟩
      | cons first earlier =>
        obtain ⟨rfl, hlater⟩ := List.cons.inj h
        obtain ⟨before, q, after, rfl, hq, hbefore, hline⟩ := ih hlater
        refine ⟨p :: before, q, after, rfl, hq, ?_, hline⟩
        rw [located_of_some hp, hbefore]

theorem exists_recorded (h : tokenize text = .ok (earlier ++ t :: later)) :
    ∃ before, StandsAfter text before t.value ∧ located 1 before = earlier ∧
      Recorded t.line before := by
  obtain ⟨ps, o, hlaid, rfl⟩ := exists_laid text
  rw [tokenize_laid hlaid, Remainder.outcome] at h
  split at h
  · obtain ⟨before, p, after, rfl, hp, hbefore, hline⟩ := exists_of_located (Except.ok.inj h)
    exact ⟨before, ⟨p, after, o, hlaid, rfl, hp⟩, hbefore, hline ▸ recorded_lineAfter before⟩
  · cases h

end Lexer

namespace Statement

variable {n : Nat} {ts : List (Lined Token)} {ss : List Statement} {s : Statement}

/-- The tokens of the substatements stand together among those of the statement. -/
theorem Writes.children (h : Writes n ts ss) (hs : s ∈ ss) :
    ∃ m us, Writes m us s.children ∧ us <:+: ts := by
  induction h with
  | nil n => exact absurd hs List.not_mem_nil
  | @short n h hs' ts ss head line rest ih =>
    rcases List.mem_cons.1 hs with rfl | hs
    · exact ⟨n, [], .nil n, List.nil_infix⟩
    · obtain ⟨m, us, hus, hin⟩ := ih hs
      have hsuffix : ts <:+ hs' ++ ⟨.semicolon, line⟩ :: ts :=
        (List.suffix_cons _ _).trans (List.suffix_append _ _)
      exact ⟨m, us, hus, hin.trans hsuffix.isInfix⟩
  | @block n h hs' us ts children ss head line body endLine rest _ ih =>
    rcases List.mem_cons.1 hs with rfl | hs
    · refine ⟨n, us, body, hs' ++ [⟨.openBrace, line⟩], ⟨.closeBrace, endLine⟩ :: ts, ?_⟩
      simp only [List.append_assoc, List.cons_append, List.nil_append]
    · obtain ⟨m, us', hus, hin⟩ := ih hs
      have hsuffix : ts <:+ hs' ++ ⟨.openBrace, line⟩ :: (us ++ ⟨.closeBrace, endLine⟩ :: ts) :=
        (((List.suffix_cons _ _).trans (List.suffix_append _ _)).trans
          (List.suffix_cons _ _)).trans (List.suffix_append _ _)
      exact ⟨m, us', hus, hin.trans hsuffix.isInfix⟩

/-- The keyword of a statement is a token, on the line of the statement. -/
theorem Writes.keyword_mem (h : Writes n ts ss) (hs : s ∈ ss) : ⟨.word s.keyword, s.line⟩ ∈ ts := by
  induction h with
  | nil n => exact absurd hs List.not_mem_nil
  | short head line rest ih =>
    rcases List.mem_cons.1 hs with rfl | hs
    · exact List.mem_append_left _ head.mem
    · exact List.mem_append_right _ (List.mem_cons_of_mem _ (ih hs))
  | block head line body endLine rest _ ih =>
    rcases List.mem_cons.1 hs with rfl | hs
    · exact List.mem_append_left _ head.mem
    · exact List.mem_append_right _ (List.mem_cons_of_mem _
        (List.mem_append_right _ (List.mem_cons_of_mem _ (ih hs))))

end Statement

namespace Module

open Statement

variable {ts : List (Lined Token)} {s : Statement} {t : Lined Token} {e : Lined SourceFailure}
  {text : String}

/-! ## The token that a diagnostic is about -/

/-- What a statement lacks that would be a module. -/
inductive Lacks (s : Statement) : SourceFailure → Prop
  | submodule (h : s.keyword = "submodule") : Lacks s .submodule
  | notAModule (h : s.keyword ≠ "module") (other : s.keyword ≠ "submodule") :
      Lacks s (.notAModule s.keyword)
  | unnamed (h : s.argument = none) : Lacks s .unnamed
  | noNamespace (h : ∀ text, ¬ s.GivesFirst "namespace" text) : Lacks s .noNamespace
  | noShortName (h : ∀ text, ¬ s.GivesFirst "prefix" text) : Lacks s .noShortName

/-- What keeps the tokens from declaring a module, and the token that shows it: the one at which the
grammar is broken, or the keyword of the statement that lacks something. -/
inductive Blames (ts : List (Lined Token)) : SourceFailure → Lined Token → Prop
  | grammatical {f : Statement.Failure} {t : Lined Token} (faulty : Reader.Faulty ts f t) :
      Blames ts (.grammatical f) t
  | whole {s : Statement} {f : SourceFailure} (written : Writes maxNesting ts [s])
      (lacks : Lacks s f) : Blames ts f ⟨.word s.keyword, s.line⟩
  | unnamedImport {s c : Statement} (written : Writes maxNesting ts [s]) (child : c ∈ s.children)
      (isImport : c.keyword = "import") (unnamed : c.argument = none) :
      Blames ts .unnamedImport ⟨.word c.keyword, c.line⟩

theorem Blames.mem {f : SourceFailure} (h : Blames ts f t) : t ∈ ts := by
  cases h with
  | grammatical faulty => exact faulty.mem
  | whole written lacks => exact written.keyword_mem List.mem_cons_self
  | unnamedImport written child isImport unnamed =>
    obtain ⟨m, us, hus, hin⟩ := written.children List.mem_cons_self
    exact hin.subset (hus.keyword_mem child)

theorem required_eq_error {text : Option String} {e e' : Lined SourceFailure} :
    (match text with
      | some t => Except.ok t
      | none => .error e) = .error e' ↔ text = none ∧ e = e' := by
  cases text with
  | none => simp
  | some t => simp

theorem childArgument_eq_none_iff {keyword : String} :
    s.childArgument keyword = none ↔ ∀ text, ¬ s.GivesFirst keyword text := by
  simp only [Option.eq_none_iff_forall_ne_some, ne_eq, childArgument_eq_some_iff]

theorem importOf_eq_error (h : importOf s = .error e) :
    s.argument = none ∧ e = ⟨.unnamedImport, s.line⟩ := by
  unfold importOf at h
  split at h
  · rename_i harg
    exact ⟨harg, (Except.error.inj h).symm⟩
  · cases h

theorem ofStatement_eq_error (h : ofStatement s = .error e) :
    (Lacks s e.value ∧ e.line = s.line) ∨
      ∃ c ∈ s.children, c.keyword = "import" ∧ c.argument = none ∧
        e = ⟨.unnamedImport, c.line⟩ := by
  unfold ofStatement at h
  dsimp only at h
  split at h
  · rename_i hkeyword
    cases h
    exact .inl ⟨.submodule hkeyword, rfl⟩
  rename_i hother
  split at h
  · rename_i hkeyword
    cases h
    exact .inl ⟨.notAModule hkeyword hother, rfl⟩
  rcases Outcome.bind_eq_error.1 h with h | ⟨_, _, h⟩
  · obtain ⟨hname, rfl⟩ := required_eq_error.1 h
    exact .inl ⟨.unnamed hname, rfl⟩
  rcases Outcome.bind_eq_error.1 h with h | ⟨_, _, h⟩
  · obtain ⟨huri, rfl⟩ := required_eq_error.1 h
    exact .inl ⟨.noNamespace (childArgument_eq_none_iff.1 huri), rfl⟩
  rcases Outcome.bind_eq_error.1 h with h | ⟨_, _, h⟩
  · obtain ⟨hshort, rfl⟩ := required_eq_error.1 h
    exact .inl ⟨.noShortName (childArgument_eq_none_iff.1 hshort), rfl⟩
  rcases Outcome.bind_eq_error.1 h with h | ⟨_, _, h⟩
  · obtain ⟨c, hc, hfail⟩ := Outcome.mem_of_mapM_eq_error h
    obtain ⟨hchild, hkeyword⟩ := List.mem_filter.1 hc
    obtain ⟨harg, rfl⟩ := importOf_eq_error hfail
    exact .inr ⟨c, hchild, beq_iff_eq.1 hkeyword, harg, rfl⟩
  · cases h

/-- A source that is refused leaves something open, is empty, or has a token that is to blame. -/
theorem parse_eq_error (h : parse text = .error e) :
    (∃ f, e.value = .lexical f ∧ tokenize text.toList = .error ⟨f, e.line⟩) ∨
      (tokenize text.toList = .ok [] ∧ e = ⟨.grammatical .emptySource, 1⟩) ∨
      ∃ ts t, tokenize text.toList = .ok ts ∧ t ∈ ts ∧ Blames ts e.value t ∧ e.line = t.line := by
  unfold parse at h
  rcases Outcome.bind_eq_error.1 h with h | ⟨ts, hts, h⟩
  · obtain ⟨⟨f, line⟩, hlex, rfl⟩ := Outcome.mapError_eq_error.1 h
    exact .inl ⟨f, rfl, hlex⟩
  rw [Outcome.mapError_eq_ok] at hts
  rcases Outcome.bind_eq_error.1 h with h | ⟨s, hs, h⟩
  · obtain ⟨e', hread, rfl⟩ := Outcome.mapError_eq_error.1 h
    by_cases hnil : ts = []
    · subst hnil
      cases hread
      exact .inr (.inl ⟨hts, rfl⟩)
    · obtain ⟨t, hfaulty, hline⟩ := shows_of_ofTokens hread hnil
      exact .inr (.inr ⟨ts, t, hts, hfaulty.mem, .grammatical hfaulty, hline⟩)
  rw [Outcome.mapError_eq_ok, ofTokens_eq_ok_iff] at hs
  rcases ofStatement_eq_error h with ⟨hlacks, hline⟩ | ⟨c, hchild, hkeyword, harg, rfl⟩
  · have hblames := Blames.whole hs hlacks
    exact .inr (.inr ⟨ts, _, hts, hblames.mem, hblames, hline⟩)
  · have hblames := Blames.unnamedImport hs hchild hkeyword harg
    exact .inr (.inr ⟨ts, _, hts, hblames.mem, hblames, rfl⟩)

end Module

open Lexer

/-- The line of a token is one more than the line feeds before its first character, and the line of
what is not ended likewise, less the line feeds that a backslash takes in double quotes: it is the
true one just if there are none. And a diagnostic of a source that is not empty has the line of the
token that is to blame. -/
theorem recorded_lines (text : String) :
    (∀ earlier t later, tokenize text.toList = .ok (earlier ++ t :: later) →
      ∃ before, StandsAfter text.toList before t.value ∧ located 1 before = earlier ∧
        Recorded t.line before) ∧
    (∀ e, tokenize text.toList = .error e →
      ∃ before, LeavesOpen text.toList before e.value ∧ Recorded e.line before) ∧
    (∀ line before, Recorded line before →
      (line = 1 + (textOf before).count '\n' ↔
        ∀ style letters, .quoted style letters ∈ before → .escaped '\n' ∉ letters)) ∧
    ∀ e, Module.parse text = .error e →
      (∃ f, e.value = .lexical f ∧ tokenize text.toList = .error ⟨f, e.line⟩) ∨
      (tokenize text.toList = .ok [] ∧ e = ⟨.grammatical .emptySource, 1⟩) ∨
      ∃ ts t, tokenize text.toList = .ok ts ∧ t ∈ ts ∧ Module.Blames ts e.value t ∧
        e.line = t.line := by
  refine ⟨fun _ _ _ => exists_recorded, fun e h => ?_, fun _ _ => Recorded.exact_iff,
    fun _ => Module.parse_eq_error⟩
  obtain ⟨before, hopen, hline⟩ := exists_leavesOpen h
  exact ⟨before, hopen, hline ▸ recorded_lineAfter before⟩

theorem recorded_lines_after_comment :
    tokenize "/*\n*/ a '\n' \"\\\n\" b".toList =
        .ok [⟨.word "a", 2⟩, ⟨.quoted "\n", 2⟩, ⟨.quoted "\n", 3⟩, ⟨.word "b", 3⟩] ∧
      (∃ before, StandsAfter "/*\n*/ a '\n' \"\\\n\" b".toList before (.word "b") ∧
        located 1 before = [⟨.word "a", 2⟩, ⟨.quoted "\n", 2⟩, ⟨.quoted "\n", 3⟩] ∧
        Recorded 3 before) ∧
      tokenize "a '\n' /*\n".toList = .error ⟨.unterminatedComment, 2⟩ ∧
      ∃ before, LeavesOpen "a '\n' /*\n".toList before .unterminatedComment ∧
        Recorded 2 before := by
  have htokens : tokenize "/*\n*/ a '\n' \"\\\n\" b".toList =
      .ok [⟨.word "a", 2⟩, ⟨.quoted "\n", 2⟩, ⟨.quoted "\n", 3⟩, ⟨.word "b", 3⟩] := by rfl
  have hopen : tokenize "a '\n' /*\n".toList = .error ⟨.unterminatedComment, 2⟩ := by rfl
  have hb := (recorded_lines "/*\n*/ a '\n' \"\\\n\" b").1
    [⟨.word "a", 2⟩, ⟨.quoted "\n", 2⟩, ⟨.quoted "\n", 3⟩] ⟨.word "b", 3⟩ [] htokens
  exact ⟨htokens, hb, hopen, (recorded_lines "a '\n' /*\n").2.1 _ hopen⟩

/-- A line feed that a backslash takes is not counted: what follows is recorded on the line before
its own. -/
theorem escaped_line_feed_not_counted :
    tokenize "\"\\\n\" x".toList = .ok [⟨.quoted "\n", 1⟩, ⟨.word "x", 1⟩] ∧
      (∃ before, StandsAfter "\"\\\n\" x".toList before (.word "x") ∧
        (textOf before).count '\n' = 1) ∧
      Module.parse "module \"\\\n\" \x7d" =
        .error ⟨.grammatical (.expectedBody "module" .closeBrace), 1⟩ := by
  refine ⟨by rfl, ?_, by rfl⟩
  have hword : IsWord ['x'] := by decide
  have hlaid : Laid [.quoted .double [.escaped '\n'], .blank ' ', .word ['x']] .nothing := by
    refine .piece (List.forall_mem_singleton.2 rfl) (fun _ h => nomatch h) ?_
    refine .piece rfl (fun _ h => nomatch h) ?_
    exact .piece hword (fun _ _ _ h => nomatch h) (.remainder trivial)
  exact ⟨[.quoted .double [.escaped '\n'], .blank ' '],
    ⟨.word ['x'], [], .nothing, hlaid, rfl, rfl⟩, rfl⟩

end MountRegistry.Yang
