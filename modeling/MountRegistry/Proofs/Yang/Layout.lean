import MountRegistry.Yang.Token

/-
  How a text is laid out. A text is made of pieces: blanks, comments, and the words, quoted strings
  and signs that are its tokens. Whatever it is, it can be cut into pieces up to what is left open
  at its end (`exists_laid`), and the lexer finds just the tokens of the pieces, each on the line
  that they give it, or fails for what is left open (`tokenize_laid`).
-/

namespace MountRegistry.Yang.Lexer

/-! ## Pieces -/

/-- A character in quotes: by itself, or after a backslash. -/
inductive Letter where
  | plain (c : Char)
  | escaped (c : Char)
  deriving DecidableEq, Repr

namespace Letter

/-- The characters that stand in the text. -/
def text : Letter → List Char
  | plain c => [c]
  | escaped c => ['\\', c]

/-- The character that is meant. -/
def value : Letter → Char
  | plain c => c
  | escaped c => unescape c

/-- The letter can stand in these quotes. In single ones a backslash is an ordinary character. -/
def Fits (style : QuoteStyle) : Letter → Prop
  | plain c => c ≠ style.mark ∧ ¬ (style = .double ∧ c = '\\')
  | escaped _ => style = .double

end Letter

/-- The text is no comment and nothing in it ends a word. -/
structure IsWord (text : List Char) : Prop where
  nonempty : text ≠ []
  inside : ∀ c ∈ text, endsWord c = false
  no_line_comment : ¬ ['/', '/'] <+: text
  no_block_comment : ¬ ['/', '*'] <+: text

theorem isWord_iff (text : List Char) :
    (text ≠ [] ∧ text.all (!endsWord ·) = true ∧ ¬ ['/', '/'].isPrefixOf text = true ∧
      ¬ ['/', '*'].isPrefixOf text = true) ↔ IsWord text := by
  simp only [List.all_eq_true, Bool.not_eq_true', List.isPrefixOf_iff_prefix]
  exact ⟨fun ⟨h, hinside, hline, hblock⟩ => ⟨h, hinside, hline, hblock⟩,
    fun h => ⟨h.nonempty, h.inside, h.no_line_comment, h.no_block_comment⟩⟩

instance (text : List Char) : Decidable (IsWord text) := decidable_of_iff _ (isWord_iff text)

/-- What a text is made of: tokens, and what may stand between them. -/
inductive Piece where
  | blank (c : Char)
  | lineComment (body : List Char)
  | blockComment (body : List Char)
  | word (text : List Char)
  | quoted (style : QuoteStyle) (letters : List Letter)
  | openBrace
  | closeBrace
  | semicolon
  deriving DecidableEq, Repr

namespace Piece

/-- The characters of a piece, with quotes and comment marks. -/
def text : Piece → List Char
  | blank c => [c]
  | lineComment body => ['/', '/'] ++ body ++ ['\n']
  | blockComment body => ['/', '*'] ++ body ++ ['*', '/']
  | word text => text
  | quoted style letters => [style.mark] ++ letters.flatMap Letter.text ++ [style.mark]
  | openBrace => ['\x7b']
  | closeBrace => ['\x7d']
  | semicolon => [';']

/-- The token of a piece, if it is one. -/
def token? : Piece → Option Token
  | word text => some (.word (String.ofList text))
  | quoted _ letters => some (.quoted (String.ofList (letters.map Letter.value)))
  | openBrace => some .openBrace
  | closeBrace => some .closeBrace
  | semicolon => some .semicolon
  | blank _ | lineComment _ | blockComment _ => none

/-- Nothing inside the piece ends it or makes another piece of it. -/
def Sound : Piece → Prop
  | blank c => Text.isBlank c = true
  | lineComment body => '\n' ∉ body
  | blockComment body => ¬ ['*', '/'] <:+: body
  | word text => IsWord text
  | quoted style letters => ∀ l ∈ letters, l.Fits style
  | openBrace | closeBrace | semicolon => True

/-- The line feeds of a piece that begin a new line for the lexer: not those that a backslash
takes. -/
def feeds : Piece → Nat
  | quoted _ letters => letters.count (.plain '\n')
  | p => p.text.count '\n'

end Piece

/-- What a text leaves open at its end. -/
inductive Remainder where
  | nothing
  | lineComment (body : List Char)
  | blockComment (body : List Char)
  | quoted (style : QuoteStyle) (letters : List Letter) (backslash : Bool)
  deriving DecidableEq, Repr

namespace Remainder

/-- The characters up to the end of the text. -/
def text : Remainder → List Char
  | nothing => []
  | lineComment body => ['/', '/'] ++ body
  | blockComment body => ['/', '*'] ++ body
  | quoted style letters backslash =>
    [style.mark] ++ letters.flatMap Letter.text ++ if backslash then ['\\'] else []

/-- Nothing in the text ends what is left open. -/
def Sound : Remainder → Prop
  | nothing => True
  | lineComment body => '\n' ∉ body
  | blockComment body => ¬ ['*', '/'] <:+: body
  | quoted style letters backslash =>
    (∀ l ∈ letters, l.Fits style) ∧ (backslash = true → style = .double)

/-- What the text does not end. -/
def failure? : Remainder → Option Failure
  | nothing | lineComment _ => none
  | blockComment _ => some .unterminatedComment
  | quoted _ _ _ => some .unterminatedString

end Remainder

/-- The pieces one after the other. -/
def textOf (ps : List Piece) : List Char := ps.flatMap Piece.text

theorem textOf_cons (p : Piece) (ps : List Piece) : textOf (p :: ps) = p.text ++ textOf ps := rfl

/-- The pieces and the remainder make sense side by side: nothing goes on with a word that ends. -/
inductive Laid : List Piece → Remainder → Prop
  | remainder {o : Remainder} (sound : o.Sound) : Laid [] o
  | piece {p : Piece} {ps : List Piece} {o : Remainder} (sound : p.Sound)
      (closed : ∀ w, p = .word w → ∀ c, (textOf ps ++ o.text).head? = some c → endsWord c = true)
      (rest : Laid ps o) : Laid (p :: ps) o

/-- The line after pieces that begin on a line. -/
def lineAfter (line : Nat) : List Piece → Nat
  | [] => line
  | p :: ps => lineAfter (line + p.feeds) ps

/-- The tokens of pieces that begin on a line. -/
def located (line : Nat) : List Piece → List (Lined Token)
  | [] => []
  | p :: ps => (p.token?.map (⟨·, line⟩)).toList ++ located (line + p.feeds) ps

variable {ps : List Piece} {p : Piece} {o : Remainder} {c : Char} {line start : Nat}
  {text body : List Char} {ts : List (Lined Token)} {style : QuoteStyle} {letters : List Letter}

theorem located_of_none (h : p.token? = none) :
    located line (p :: ps) = located (line + p.feeds) ps := by
  rw [located, h]
  rfl

theorem located_of_some {t : Token} (h : p.token? = some t) :
    located line (p :: ps) = ⟨t, line⟩ :: located (line + p.feeds) ps := by
  rw [located, h]
  rfl

/-! ## Reading a piece -/

theorem run_cons (s : State) (c : Char) (text : List Char) :
    run s (c :: text) = run (step s c) text :=
  rfl

theorem run_lineComment (h : '\n' ∉ body) :
    run ⟨.lineComment, line, ts⟩ body = ⟨.lineComment, line, ts⟩ := by
  induction body with
  | nil => rfl
  | cons c rest ih =>
    obtain ⟨hc, hrest⟩ := not_or.1 (mt List.mem_cons.2 h)
    have hstep : step ⟨.lineComment, line, ts⟩ c = ⟨.lineComment, line, ts⟩ := by
      simp [step, State.read, State.nextLine, Ne.symm hc]
    rw [run_cons, hstep, ih hrest]

/-- Inside a block comment, no star before this text with a slash in it. -/
def NotClosed (afterStar : Bool) (body : List Char) : Prop :=
  ¬ ['*', '/'] <:+: if afterStar then '*' :: body else body

theorem NotClosed.cons {afterStar : Bool} (h : NotClosed afterStar (c :: body)) :
    ¬ (afterStar = true ∧ c = '/') ∧ NotClosed (c == '*') body := by
  unfold NotClosed at h ⊢
  constructor
  · rintro ⟨rfl, rfl⟩
    exact h ⟨[], body, rfl⟩
  · intro hin
    by_cases hc : c = '*'
    · subst hc
      refine h (List.IsInfix.trans hin ?_)
      cases afterStar with
      | false => exact List.infix_rfl
      | true => exact (List.suffix_cons _ _).isInfix
    · simp only [beq_iff_eq, hc, if_false] at hin
      refine h (hin.trans ?_)
      cases afterStar with
      | false => exact (List.suffix_cons _ _).isInfix
      | true => exact ((List.suffix_cons _ _).trans (List.suffix_cons _ _)).isInfix

theorem step_blockComment {afterStar : Bool} (h : ¬ (afterStar = true ∧ c = '/')) :
    step ⟨.blockComment start afterStar, line, ts⟩ c =
      ⟨.blockComment start (c == '*'), line + [c].count '\n', ts⟩ := by
  by_cases hc : c = '\n' <;> simp [step, State.read, State.nextLine, h, hc]

/-- A comment goes on until a star and a slash. -/
theorem run_blockComment {afterStar : Bool} (h : NotClosed afterStar body) :
    ∃ star, run ⟨.blockComment start afterStar, line, ts⟩ body =
      ⟨.blockComment start star, line + body.count '\n', ts⟩ := by
  induction body generalizing afterStar line with
  | nil => exact ⟨afterStar, rfl⟩
  | cons c rest ih =>
    obtain ⟨hc, hrest⟩ := h.cons
    obtain ⟨star, hstar⟩ := @ih (line + [c].count '\n') _ hrest
    refine ⟨star, ?_⟩
    rw [run_cons, step_blockComment hc, hstar, Nat.add_assoc, ← List.count_append]
    rfl

theorem run_openComment (h : ¬ ['*', '/'] <:+: body) (line : Nat) (ts : List (Lined Token)) :
    ∃ star, run ⟨.between, line, ts⟩ (['/', '*'] ++ body) =
      ⟨.blockComment line star, line + body.count '\n', ts⟩ := by
  have hnot : NotClosed false body := h
  rw [run_append]
  exact run_blockComment hnot

theorem run_letter {l : Letter} (hl : l.Fits style) :
    run ⟨.quoted style start text, line, ts⟩ l.text =
      ⟨.quoted style start (l.value :: text), line + [l].count (.plain '\n'), ts⟩ := by
  cases l with
  | plain c =>
    have hread : State.read ⟨.quoted style start text, line, ts⟩ c =
        ⟨.quoted style start (c :: text), line, ts⟩ := by
      simp only [State.read, State.inQuotes, if_neg hl.1, if_neg hl.2]
    show step _ c = _
    rw [step, hread]
    by_cases hc : c = '\n' <;> simp [State.nextLine, Letter.value, hc]
  | escaped c =>
    obtain rfl : style = .double := hl
    rfl

theorem run_letters (h : ∀ l ∈ letters, l.Fits style) :
    run ⟨.quoted style start text, line, ts⟩ (letters.flatMap Letter.text) =
      ⟨.quoted style start ((letters.map Letter.value).reverse ++ text),
        line + letters.count (.plain '\n'), ts⟩ := by
  induction letters generalizing text line with
  | nil => rfl
  | cons l letters ih =>
    obtain ⟨hl, hrest⟩ := List.forall_mem_cons.1 h
    rw [List.flatMap_cons, run_append, run_letter hl, ih hrest, Nat.add_assoc,
      ← List.count_append]
    simp

theorem run_openQuote (h : ∀ l ∈ letters, l.Fits style) :
    run ⟨.between, line, ts⟩ ([style.mark] ++ letters.flatMap Letter.text) =
      ⟨.quoted style line (letters.map Letter.value).reverse,
        line + letters.count (.plain '\n'), ts⟩ := by
  have hopen : run ⟨.between, line, ts⟩ [style.mark] = ⟨.quoted style line [], line, ts⟩ := by
    cases style <;> rfl
  rw [run_append, hopen, run_letters h, List.append_nil]

/-- What the mode is after the characters of a word. -/
def wordMode (w : List Char) : Mode := if w = ['/'] then .slash else .word w.reverse

theorem not_lineFeed_of_inside (h : endsWord c = false) : c ≠ '\n' := by
  rintro rfl
  revert h
  decide

theorem run_inWord {w : List Char} (h : ∀ c ∈ w, endsWord c = false) :
    run ⟨.word text, line, ts⟩ w = ⟨.word (w.reverse ++ text), line, ts⟩ := by
  induction w generalizing text with
  | nil => rfl
  | cons c rest ih =>
    obtain ⟨hc, hrest⟩ := List.forall_mem_cons.1 h
    have hstep : step ⟨.word text, line, ts⟩ c = ⟨.word (c :: text), line, ts⟩ := by
      simp [step, State.read, State.inWord, State.nextLine, hc, not_lineFeed_of_inside hc]
    rw [run_cons, hstep, ih hrest]
    simp

theorem step_between (h : endsWord c = false) :
    step ⟨.between, line, ts⟩ c = ⟨if c = '/' then .slash else .word [c], line, ts⟩ := by
  have hline := not_lineFeed_of_inside h
  simp only [endsWord, Bool.or_eq_false_iff, beq_eq_false_iff_ne] at h
  by_cases hc : c = '/' <;> simp_all [step, State.read, State.between, State.nextLine]

theorem run_word {w : List Char} (h : IsWord w) :
    run ⟨.between, line, ts⟩ w = ⟨wordMode w, line, ts⟩ := by
  obtain ⟨c, rest, rfl⟩ := List.exists_cons_of_ne_nil h.nonempty
  obtain ⟨hc, hrest⟩ := List.forall_mem_cons.1 h.inside
  rw [run_cons, step_between hc]
  by_cases hslash : c = '/'
  · subst hslash
    cases rest with
    | nil => rfl
    | cons d rest =>
      obtain ⟨hd, hrest⟩ := List.forall_mem_cons.1 hrest
      have hline : d ≠ '/' := by
        rintro rfl
        exact h.no_line_comment ⟨rest, rfl⟩
      have hblock : d ≠ '*' := by
        rintro rfl
        exact h.no_block_comment ⟨rest, rfl⟩
      have hstep : step ⟨.slash, line, ts⟩ d = ⟨.word [d, '/'], line, ts⟩ := by
        simp [step, State.read, State.inWord, State.nextLine, hline, hblock, hd,
          not_lineFeed_of_inside hd]
      rw [if_pos rfl, run_cons, hstep, run_inWord hrest]
      simp [wordMode]
  · rw [if_neg hslash, run_inWord hrest]
    simp [wordMode, hslash]

/-- What ends a word is read as if the word had been finished before. -/
theorem step_wordMode (w : List Char) (hc : endsWord c = true) :
    step ⟨wordMode w, line, ts⟩ c =
      step ⟨.between, line, ⟨.word (String.ofList w), line⟩ :: ts⟩ c := by
  unfold wordMode
  split
  · rename_i hw
    subst hw
    have hline : c ≠ '/' := by
      rintro rfl
      revert hc
      decide
    have hblock : c ≠ '*' := by
      rintro rfl
      revert hc
      decide
    simp [step, State.read, State.inWord, State.nextLine, State.push, hline, hblock, hc]
  · simp [step, State.read, State.inWord, State.nextLine, State.push, hc]

theorem finish_wordMode (w : List Char) :
    State.finish ⟨wordMode w, line, ts⟩ =
      State.finish ⟨.between, line, ⟨.word (String.ofList w), line⟩ :: ts⟩ := by
  unfold wordMode
  split
  · rename_i hw
    subst hw
    rfl
  · simp [State.finish, State.push]

theorem finish_run_word {w rest : List Char} (h : IsWord w)
    (hrest : ∀ c, rest.head? = some c → endsWord c = true) :
    (run ⟨.between, line, ts⟩ (w ++ rest)).finish =
      (run ⟨.between, line, ⟨.word (String.ofList w), line⟩ :: ts⟩ rest).finish := by
  rw [run_append, run_word h]
  cases rest with
  | nil => exact finish_wordMode w
  | cons c rest => rw [run_cons, run_cons, step_wordMode w (hrest c rfl)]

theorem feeds_word {w : List Char} (h : IsWord w) : (Piece.word w).feeds = 0 :=
  List.count_eq_zero.2 fun hmem => not_lineFeed_of_inside (h.inside _ hmem) rfl

/-- A piece that is no word leaves the lexer between two tokens. -/
theorem run_piece (h : p.Sound) (hword : ∀ w, p ≠ .word w) :
    run ⟨.between, line, ts⟩ p.text =
      ⟨.between, line + p.feeds, (p.token?.map (⟨·, line⟩)).toList ++ ts⟩ := by
  cases p with
  | word w => exact absurd rfl (hword w)
  | blank c =>
    have hread : State.read ⟨.between, line, ts⟩ c = ⟨.between, line, ts⟩ := if_pos h
    show step _ c = _
    rw [step, hread]
    by_cases hc : c = '\n' <;> simp [State.nextLine, Piece.feeds, Piece.text, Piece.token?, hc]
  | lineComment body =>
    have hopen : run ⟨.between, line, ts⟩ ['/', '/'] = ⟨.lineComment, line, ts⟩ := rfl
    have hend : run ⟨.lineComment, line, ts⟩ ['\n'] = ⟨.between, line + 1, ts⟩ := rfl
    have hfeeds : (Piece.lineComment body).feeds = 1 := by
      simp [Piece.feeds, Piece.text, List.count_eq_zero.2 h]
    rw [Piece.text, run_append, run_append, hopen, run_lineComment h, hend, hfeeds]
    rfl
  | blockComment body =>
    obtain ⟨star, hbody⟩ := run_openComment h line ts
    have hend : ∀ l, run ⟨.blockComment line star, l, ts⟩ ['*', '/'] = ⟨.between, l, ts⟩ := by
      intro l
      cases star <;> rfl
    have hfeeds : (Piece.blockComment body).feeds = body.count '\n' := by
      simp [Piece.feeds, Piece.text]
    rw [Piece.text, run_append, hbody, hend, hfeeds]
    rfl
  | quoted style letters =>
    have hend : ∀ l text, run ⟨.quoted style line text, l, ts⟩ [style.mark] =
        ⟨.between, l, ⟨.quoted (String.ofList text.reverse), line⟩ :: ts⟩ := by
      intro l text
      cases style <;> rfl
    rw [Piece.text, run_append, run_openQuote h, hend, List.reverse_reverse]
    rfl
  | openBrace => rfl
  | closeBrace => rfl
  | semicolon => rfl

/-- What the lexer answers for a remainder after these tokens, on a line. -/
def Remainder.outcome (o : Remainder) (line : Nat) (ts : List (Lined Token)) :
    Except (Lined Failure) (List (Lined Token)) :=
  match o.failure? with
  | none => .ok ts
  | some f => .error ⟨f, line⟩

theorem finish_run_remainder (h : o.Sound) :
    (run ⟨.between, line, ts⟩ o.text).finish = o.outcome line ts.reverse := by
  cases o with
  | nothing => rfl
  | lineComment body =>
    have hopen : run ⟨.between, line, ts⟩ ['/', '/'] = ⟨.lineComment, line, ts⟩ := rfl
    rw [Remainder.text, run_append, hopen, run_lineComment h]
    rfl
  | blockComment body =>
    obtain ⟨star, hbody⟩ := run_openComment h line ts
    rw [Remainder.text, hbody]
    rfl
  | quoted style letters backslash =>
    obtain ⟨hletters, hbackslash⟩ := h
    rw [Remainder.text, run_append, run_openQuote hletters]
    cases backslash with
    | false => rfl
    | true =>
      obtain rfl := hbackslash rfl
      rfl

/-- The lexer finds the tokens of the pieces, or fails for what is left open. -/
theorem finish_run_laid (h : Laid ps o) :
    (run ⟨.between, line, ts⟩ (textOf ps ++ o.text)).finish =
      o.outcome (lineAfter line ps) (ts.reverse ++ located line ps) := by
  induction h generalizing line ts with
  | remainder sound =>
    rw [located, List.append_nil]
    exact finish_run_remainder sound
  | @piece p ps o sound closed rest ih =>
    rw [lineAfter, textOf_cons, List.append_assoc]
    by_cases hword : ∃ w, p = .word w
    · obtain ⟨w, rfl⟩ := hword
      rw [Piece.text, finish_run_word sound (closed w rfl), located, feeds_word sound, ih,
        List.reverse_cons, List.append_assoc]
      rfl
    · have hword' : ∀ w, p ≠ .word w := fun w heq => hword ⟨w, heq⟩
      rw [run_append, run_piece sound hword', located, ih]
      cases p.token? <;> simp

theorem tokenize_laid (h : Laid ps o) :
    tokenize (textOf ps ++ o.text) = o.outcome (lineAfter 1 ps) (located 1 ps) :=
  finish_run_laid h

/-! ## Cutting a text into pieces -/

/-- The text begins with a piece, or nothing in it ends what it begins with. -/
def Begins (text : List Char) : Prop :=
  (∃ (p : Piece) (rest : List Char), p.Sound ∧ p.text ≠ [] ∧
    (∀ w, p = .word w → ∀ c, rest.head? = some c → endsWord c = true) ∧ text = p.text ++ rest) ∨
  ∃ o : Remainder, o.Sound ∧ text = o.text

theorem begins_with (hp : p.Sound) (hword : ∀ w, p ≠ .word w) (hne : p.text ≠ [])
    (rest : List Char) : Begins (p.text ++ rest) :=
  .inl ⟨p, rest, hp, hne, fun w heq => absurd heq (hword w), rfl⟩

/-- After a quote: letters up to the next one, or nothing but letters. -/
def Quotes (style : QuoteStyle) (text : List Char) : Prop :=
  (∃ (letters : List Letter) (rest : List Char), (∀ l ∈ letters, l.Fits style) ∧
    text = letters.flatMap Letter.text ++ style.mark :: rest) ∨
  ∃ letters backslash, (Remainder.quoted style letters backslash).Sound ∧
    text = letters.flatMap Letter.text ++ if backslash then ['\\'] else []

theorem Quotes.cons {l : Letter} (hl : l.Fits style) (h : Quotes style text) :
    Quotes style (l.text ++ text) := by
  rcases h with ⟨letters, rest, hletters, rfl⟩ | ⟨letters, backslash, ⟨hletters, hb⟩, rfl⟩
  · exact .inl ⟨l :: letters, rest, List.forall_mem_cons.2 ⟨hl, hletters⟩,
      (List.append_assoc _ _ _).symm⟩
  · exact .inr ⟨l :: letters, backslash, ⟨List.forall_mem_cons.2 ⟨hl, hletters⟩, hb⟩,
      (List.append_assoc _ _ _).symm⟩

theorem quotes (style : QuoteStyle) (text : List Char) : Quotes style text := by
  induction hn : text.length using Nat.strongRecOn generalizing text with
  | ind n ih =>
    subst hn
    cases text with
    | nil => exact .inr ⟨[], false, ⟨List.forall_mem_nil _, fun h => (nomatch h)⟩, rfl⟩
    | cons c text =>
      by_cases hmark : c = style.mark
      · exact .inl ⟨[], text, List.forall_mem_nil _, by rw [hmark]; rfl⟩
      · by_cases hescape : style = .double ∧ c = '\\'
        · obtain ⟨rfl, rfl⟩ := hescape
          cases text with
          | nil => exact .inr ⟨[], true, ⟨List.forall_mem_nil _, fun _ => rfl⟩, rfl⟩
          | cons d text =>
            have hshorter : text.length < ('\\' :: d :: text).length := by
              simp only [List.length_cons]
              omega
            exact .cons (l := .escaped d) rfl (ih _ hshorter text rfl)
        · exact .cons (l := .plain c) ⟨hmark, hescape⟩ (ih _ (by simp) text rfl)

theorem begins_quote (style : QuoteStyle) (text : List Char) : Begins (style.mark :: text) := by
  rcases quotes style text with ⟨letters, rest, hletters, rfl⟩ | ⟨letters, backslash, ho, rfl⟩
  · have h := begins_with (p := .quoted style letters) hletters (by simp) (by simp [Piece.text])
      rest
    simpa [Piece.text] using h
  · exact .inr ⟨_, ho, by simp [Remainder.text]⟩

theorem begins_lineComment (text : List Char) : Begins ('/' :: '/' :: text) := by
  by_cases h : '\n' ∈ text
  · obtain ⟨body, rest, rfl, hbody⟩ := List.eq_append_cons_of_mem h
    have h := begins_with (p := .lineComment body) hbody (by simp) (by simp [Piece.text]) rest
    simpa [Piece.text] using h
  · exact .inr ⟨.lineComment text, h, rfl⟩

theorem exists_blockComment (text : List Char) :
    (∃ body rest, ¬ ['*', '/'] <:+: body ∧ text = body ++ '*' :: '/' :: rest) ∨
      ¬ ['*', '/'] <:+: text := by
  induction text with
  | nil => exact .inr (by simp)
  | cons c text ih =>
    by_cases hclose : ['*', '/'] <+: c :: text
    · obtain ⟨rest, hrest⟩ := hclose
      exact .inl ⟨[], rest, by simp, hrest.symm⟩
    · rcases ih with ⟨body, rest, hbody, rfl⟩ | hopen
      · refine .inl ⟨c :: body, rest, fun hin => ?_, rfl⟩
        rcases List.infix_cons_iff.1 hin with hin | hin
        · exact hclose (hin.trans (List.prefix_append (c :: body) _))
        · exact hbody hin
      · exact .inr fun hin => (List.infix_cons_iff.1 hin).elim hclose hopen

theorem begins_blockComment (text : List Char) : Begins ('/' :: '*' :: text) := by
  rcases exists_blockComment text with ⟨body, rest, hbody, rfl⟩ | hopen
  · have h := begins_with (p := .blockComment body) hbody (by simp) (by simp [Piece.text]) rest
    simpa [Piece.text] using h
  · exact .inr ⟨.blockComment text, hopen, rfl⟩

/-- The characters up to the first that ends a word. -/
theorem exists_inside (text : List Char) :
    ∃ w rest, (∀ c ∈ w, endsWord c = false) ∧ (∀ c, rest.head? = some c → endsWord c = true) ∧
      text = w ++ rest := by
  induction text with
  | nil => exact ⟨[], [], by simp, by simp, rfl⟩
  | cons c text ih =>
    by_cases hc : endsWord c = true
    · exact ⟨[], c :: text, by simp, by simpa using hc, rfl⟩
    · obtain ⟨w, rest, hw, hrest, rfl⟩ := ih
      exact ⟨c :: w, rest, List.forall_mem_cons.2 ⟨by simpa using hc, hw⟩, hrest, rfl⟩

theorem begins_word (hc : endsWord c = false) (hline : ¬ ['/', '/'] <+: c :: text)
    (hblock : ¬ ['/', '*'] <+: c :: text) : Begins (c :: text) := by
  obtain ⟨w, rest, hw, hrest, rfl⟩ := exists_inside text
  have hprefix : c :: w <+: c :: (w ++ rest) := List.prefix_append (c :: w) rest
  refine .inl ⟨.word (c :: w), rest, ?_, List.cons_ne_nil c w, fun _ _ => hrest, rfl⟩
  exact ⟨List.cons_ne_nil c w, List.forall_mem_cons.2 ⟨hc, hw⟩, fun h => hline (h.trans hprefix),
    fun h => hblock (h.trans hprefix)⟩

theorem begins (c : Char) (text : List Char) : Begins (c :: text) := by
  by_cases hends : endsWord c = true
  · simp only [endsWord, Bool.or_eq_true, beq_iff_eq] at hends
    rcases hends with ((((hblank | rfl) | rfl) | rfl) | rfl) | rfl
    · exact begins_with (p := .blank c) hblank (by simp) (by simp [Piece.text]) text
    · exact begins_with (p := .openBrace) trivial (by simp) (by simp [Piece.text]) text
    · exact begins_with (p := .closeBrace) trivial (by simp) (by simp [Piece.text]) text
    · exact begins_with (p := .semicolon) trivial (by simp) (by simp [Piece.text]) text
    · exact begins_quote .double text
    · exact begins_quote .single text
  · by_cases hline : ['/', '/'] <+: c :: text
    · obtain ⟨rest, hrest⟩ := hline
      rw [← hrest]
      exact begins_lineComment rest
    · by_cases hblock : ['/', '*'] <+: c :: text
      · obtain ⟨rest, hrest⟩ := hblock
        rw [← hrest]
        exact begins_blockComment rest
      · exact begins_word (Bool.eq_false_iff.2 hends) hline hblock

/-- Every text is cut into pieces and a remainder. -/
theorem exists_laid (text : List Char) : ∃ ps o, Laid ps o ∧ textOf ps ++ o.text = text := by
  induction hn : text.length using Nat.strongRecOn generalizing text with
  | ind n ih =>
    cases text with
    | nil => exact ⟨[], .nothing, .remainder trivial, rfl⟩
    | cons c text =>
      rcases begins c text with ⟨p, rest, hp, hne, hclosed, htext⟩ | ⟨o, ho, htext⟩
      · have hlen : rest.length < n := by
          have hpos := List.length_pos_iff.2 hne
          rw [← hn, htext, List.length_append]
          omega
        obtain ⟨ps, o, hlaid, rfl⟩ := ih _ hlen rest rfl
        exact ⟨p :: ps, o, .piece hp hclosed hlaid, by rw [htext, textOf_cons, List.append_assoc]⟩
      · exact ⟨[], o, .remainder ho, htext.symm⟩

/-- After these pieces the text opens a string or a block comment that it does not end. -/
def LeavesOpen (text : List Char) (before : List Piece) (f : Failure) : Prop :=
  ∃ o, Laid before o ∧ textOf before ++ o.text = text ∧ o.failure? = some f

/-- A text that is refused leaves a string or a block comment open. -/
theorem exists_leavesOpen {e : Lined Failure} (h : tokenize text = .error e) :
    ∃ before, LeavesOpen text before e.value ∧ e.line = lineAfter 1 before := by
  obtain ⟨ps, o, hlaid, rfl⟩ := exists_laid text
  rw [tokenize_laid hlaid, Remainder.outcome] at h
  split at h
  · cases h
  · rename_i f hf
    cases h
    exact ⟨ps, ⟨o, hlaid, rfl, hf⟩, rfl⟩

end MountRegistry.Yang.Lexer
