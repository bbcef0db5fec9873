import MountRegistry.Proofs.Yang.Layout
import Mathlib.Data.List.Forall2

/-
  Writing tokens down. A word is written as it is; a quoted text in single quotes, if there is none
  in it, or in double ones with the escapes that it needs; a blank and then any blanks and comments
  separate two tokens. However a list of tokens is written, the lexer reads it back
  (`tokenize_writesDown`).
-/

namespace MountRegistry.Yang.Lexer

/-! ## Ways to write a token -/

/-- The ways to write a character in double quotes. -/
inductive Letter.Spells : Char → Letter → Prop
  | plain {c : Char} (hquote : c ≠ '"') (hbackslash : c ≠ '\\') : Spells c (.plain c)
  | quote : Spells '"' (.escaped '"')
  | backslash : Spells '\\' (.escaped '\\')
  | lineFeed : Spells '\n' (.escaped 'n')
  | tab : Spells '\t' (.escaped 't')

/-- The ways to write a token. -/
inductive Piece.Writes : Token → Piece → Prop
  | word {text : List Char} (h : IsWord text) : Writes (.word (String.ofList text)) (.word text)
  | single {text : List Char} (h : '\'' ∉ text) :
      Writes (.quoted (String.ofList text)) (.quoted .single (text.map .plain))
  | double {text : List Char} {letters : List Letter}
      (h : List.Forall₂ Letter.Spells text letters) :
      Writes (.quoted (String.ofList text)) (.quoted .double letters)
  | openBrace : Writes .openBrace .openBrace
  | closeBrace : Writes .closeBrace .closeBrace
  | semicolon : Writes .semicolon .semicolon

/-- Blanks and comments that can stand between two tokens: a blank comes first. -/
structure Separates (gap : List Piece) : Prop where
  blank_first : ∃ c rest, gap = .blank c :: rest
  no_token : ∀ p ∈ gap, p.Sound ∧ p.token? = none

/-- The text has just these tokens, each written in one of its ways and separated from the next. -/
inductive WritesDown : List Token → List Char → Prop
  | nil : WritesDown [] []
  | last {t : Token} {p : Piece} (h : p.Writes t) : WritesDown [t] p.text
  | cons {t : Token} {p : Piece} {gap : List Piece} {ts : List Token} {text : List Char}
      (h : p.Writes t) (separated : Separates gap) (rest : WritesDown ts text) :
      WritesDown (t :: ts) (p.text ++ textOf gap ++ text)

variable {t : Token} {ts : List Token} {p : Piece} {ps gap : List Piece} {o : Remainder}
  {c : Char} {l : Letter} {text : List Char} {letters : List Letter}

theorem Letter.Spells.fits (h : l.Spells c) : l.Fits .double := by
  cases h with
  | plain hquote hbackslash => exact ⟨hquote, fun h => hbackslash h.2⟩
  | quote => rfl
  | backslash => rfl
  | lineFeed => rfl
  | tab => rfl

theorem Letter.Spells.value_eq (h : l.Spells c) : l.value = c := by
  cases h <;> rfl

theorem Letter.exists_spells (c : Char) : ∃ l, Letter.Spells c l := by
  by_cases hquote : c = '"'
  · subst hquote
    exact ⟨_, .quote⟩
  · by_cases hbackslash : c = '\\'
    · subst hbackslash
      exact ⟨_, .backslash⟩
    · exact ⟨_, .plain hquote hbackslash⟩

theorem fits_of_spells (h : List.Forall₂ Letter.Spells text letters) :
    ∀ l ∈ letters, l.Fits .double := by
  induction h with
  | nil => exact List.forall_mem_nil _
  | cons hl _ ih => exact List.forall_mem_cons.2 ⟨hl.fits, ih⟩

theorem values_of_spells (h : List.Forall₂ Letter.Spells text letters) :
    letters.map Letter.value = text := by
  induction h with
  | nil => rfl
  | cons hl _ ih => rw [List.map_cons, hl.value_eq, ih]

theorem exists_spelling (text : List Char) :
    ∃ letters, List.Forall₂ Letter.Spells text letters := by
  induction text with
  | nil => exact ⟨[], .nil⟩
  | cons c text ih =>
    obtain ⟨l, hl⟩ := Letter.exists_spells c
    obtain ⟨letters, hletters⟩ := ih
    exact ⟨l :: letters, .cons hl hletters⟩

theorem Piece.Writes.sound (h : p.Writes t) : p.Sound := by
  cases h with
  | word h => exact h
  | single h =>
    intro l hl
    obtain ⟨c, hc, rfl⟩ := List.mem_map.1 hl
    have hmark : c ≠ QuoteStyle.single.mark := by
      rintro rfl
      exact h hc
    exact ⟨hmark, fun h => nomatch h.1⟩
  | double h => exact fits_of_spells h
  | openBrace => trivial
  | closeBrace => trivial
  | semicolon => trivial

theorem Piece.Writes.token?_eq (h : p.Writes t) : p.token? = some t := by
  cases h with
  | word h => rfl
  | single h =>
    have hvalues : Letter.value ∘ Letter.plain = id := rfl
    rw [Piece.token?, List.map_map, hvalues, List.map_id]
  | double h => rw [Piece.token?, values_of_spells h]
  | openBrace => rfl
  | closeBrace => rfl
  | semicolon => rfl

/-! ## Reading them back -/

/-- Blanks and comments can stand before any pieces. -/
theorem Laid.after_gap (hgap : ∀ p ∈ gap, p.Sound ∧ p.token? = none) (h : Laid ps o) :
    Laid (gap ++ ps) o := by
  induction gap with
  | nil => exact h
  | cons p gap ih =>
    obtain ⟨⟨hsound, htoken⟩, hrest⟩ := List.forall_mem_cons.1 hgap
    refine .piece hsound ?_ (ih hrest)
    rintro w rfl
    exact nomatch htoken

theorem Separates.head? (h : Separates gap) :
    ∃ c, (textOf gap).head? = some c ∧ endsWord c = true := by
  obtain ⟨c, rest, rfl⟩ := h.blank_first
  have hblank : Text.isBlank c = true := (h.no_token _ List.mem_cons_self).1
  exact ⟨c, rfl, by simp [endsWord, hblank]⟩

theorem located_values (line : Nat) (ps : List Piece) :
    (located line ps).map (·.value) = ps.filterMap Piece.token? := by
  induction ps generalizing line with
  | nil => rfl
  | cons p ps ih =>
    cases hp : p.token? with
    | none => rw [located_of_none hp, List.filterMap_cons_none hp, ih]
    | some t => rw [located_of_some hp, List.filterMap_cons_some hp, List.map_cons, ih]

/-- What is written down is laid out in pieces with just its tokens. -/
theorem WritesDown.exists_laid (h : WritesDown ts text) :
    ∃ ps, Laid ps .nothing ∧ textOf ps = text ∧ ps.filterMap Piece.token? = ts := by
  induction h with
  | nil => exact ⟨[], .remainder trivial, rfl, rfl⟩
  | @last t p h =>
    refine ⟨[p], .piece h.sound (fun _ _ _ hc => nomatch hc) (.remainder trivial), ?_, ?_⟩
    · exact List.append_nil _
    · rw [List.filterMap_cons_some h.token?_eq]
      rfl
  | @cons t p gap ts text h hgap _ ih =>
    obtain ⟨ps, hlaid, rfl, rfl⟩ := ih
    have hclosed : ∀ c, (textOf (gap ++ ps) ++ Remainder.nothing.text).head? = some c →
        endsWord c = true := by
      obtain ⟨b, hb, hends⟩ := hgap.head?
      intro c hc
      rw [textOf, List.flatMap_append, List.append_assoc, List.head?_append, ← textOf, hb] at hc
      rwa [← Option.some.inj hc]
    have hnone : gap.filterMap Piece.token? = [] :=
      List.filterMap_eq_nil_iff.2 fun p hp => (hgap.no_token p hp).2
    have hrest := hlaid.after_gap hgap.no_token
    refine ⟨p :: (gap ++ ps), .piece h.sound (fun _ _ => hclosed) hrest, ?_, ?_⟩
    · rw [textOf_cons, textOf, List.flatMap_append, List.append_assoc]
      rfl
    · rw [List.filterMap_cons_some h.token?_eq, List.filterMap_append, hnone, List.nil_append]

theorem Piece.exists_writes (h : ∀ w, t = .word w → IsWord w.toList) :
    ∃ p, Piece.Writes t p := by
  cases t with
  | word w =>
    have hwrites := Piece.Writes.word (h w rfl)
    rw [String.ofList_toList] at hwrites
    exact ⟨_, hwrites⟩
  | quoted text =>
    obtain ⟨letters, hletters⟩ := exists_spelling text.toList
    have hwrites := Piece.Writes.double hletters
    rw [String.ofList_toList] at hwrites
    exact ⟨_, hwrites⟩
  | openBrace => exact ⟨_, .openBrace⟩
  | closeBrace => exact ⟨_, .closeBrace⟩
  | semicolon => exact ⟨_, .semicolon⟩

theorem separates_space : Separates [.blank ' '] where
  blank_first := ⟨' ', [], rfl⟩
  no_token := by
    intro p hp
    rw [List.mem_singleton.1 hp]
    exact ⟨rfl, rfl⟩

/-- Any tokens can be written down, if their words are words. -/
theorem exists_writesDown (h : ∀ w, .word w ∈ ts → IsWord w.toList) :
    ∃ text, WritesDown ts text := by
  induction ts with
  | nil => exact ⟨[], .nil⟩
  | cons t ts ih =>
    obtain ⟨text, hrest⟩ := ih fun w hw => h w (List.mem_cons_of_mem t hw)
    obtain ⟨p, hp⟩ := Piece.exists_writes fun w heq => h w (heq ▸ List.mem_cons_self)
    exact ⟨_, .cons hp separates_space hrest⟩

/-- The lexer undoes writing tokens down, in whichever way that is done. It refuses no text but one
that leaves a quoted string or a block comment open. -/
theorem tokenize_writesDown :
    (∀ ts text, WritesDown ts text →
      ∃ lined, tokenize text = .ok lined ∧ lined.map (·.value) = ts) ∧
    ∀ text e, tokenize text = .error e → ∃ before, LeavesOpen text before e.value := by
  refine ⟨fun ts text h => ?_, fun text e h => ?_⟩
  · obtain ⟨ps, hlaid, rfl, rfl⟩ := h.exists_laid
    have htokens := tokenize_laid hlaid
    rw [Remainder.text, List.append_nil] at htokens
    exact ⟨located 1 ps, htokens, located_values 1 ps⟩
  · obtain ⟨before, hopen, _⟩ := exists_leavesOpen h
    exact ⟨before, hopen⟩

theorem tokenize_writesDown_mixed :
    WritesDown [.word "/a//b", .quoted "//\"\n\\", .semicolon]
        "/a//b /*/ ' */// \"\n\"//\\\"\\n\\\\\"\u3000/***/;".toList ∧
      ∃ lined, tokenize "/a//b /*/ ' */// \"\n\"//\\\"\\n\\\\\"\u3000/***/;".toList =
          .ok lined ∧
        lined.map (·.value) = [.word "/a//b", .quoted "//\"\n\\", .semicolon] := by
  have hword : IsWord "/a//b".toList := by decide
  have hquoted : List.Forall₂ Letter.Spells "//\"\n\\".toList
      [.plain '/', .plain '/', .escaped '"', .escaped 'n', .escaped '\\'] :=
    .cons (.plain (by decide) (by decide)) (.cons (.plain (by decide) (by decide))
      (.cons .quote (.cons .lineFeed (.cons .backslash .nil))))
  have hfirst : Separates [.blank ' ', .blockComment "/ ' ".toList, .lineComment " \"".toList] := by
    have hblock : ¬ ['*', '/'] <:+: "/ ' ".toList := by decide
    have hline : '\n' ∉ " \"".toList := by decide
    exact ⟨⟨_, _, rfl⟩, List.forall_mem_cons.2 ⟨⟨rfl, rfl⟩,
      List.forall_mem_cons.2 ⟨⟨hblock, rfl⟩, List.forall_mem_singleton.2 ⟨hline, rfl⟩⟩⟩⟩
  have hsecond : Separates [.blank '\u3000', .blockComment ['*']] := by
    have hblock : ¬ ['*', '/'] <:+: ['*'] := by decide
    exact ⟨⟨_, _, rfl⟩, List.forall_mem_cons.2 ⟨⟨rfl, rfl⟩,
      List.forall_mem_singleton.2 ⟨hblock, rfl⟩⟩⟩
  have hwritten := WritesDown.cons (.word hword) hfirst
    (.cons (.double hquoted) hsecond (.last .semicolon))
  exact ⟨hwritten, tokenize_writesDown.1 _ _ hwritten⟩

end MountRegistry.Yang.Lexer
