import MountRegistry.Proofs.Outcome
import MountRegistry.Yang.Statement

/-
  The grammar of statements, and what the reader makes of a list of tokens. A statement is written
  as a keyword, an argument if it has one, and a semicolon or a block of further statements; an
  argument is a word, or quoted parts joined by `+` (`Writes`). The reader answers a statement just
  if the tokens write it (`ofTokens_eq_ok_iff`), and otherwise says what is wrong with them and at
  which token that shows (`shows_of_ofTokens`).
-/

namespace MountRegistry.Yang.Statement

variable {ts us hs : List (Lined Token)} {ss children : List Statement} {s : Statement}
  {h : Header} {b : Block} {bs : List Block} {t : Lined Token} {n : Nat} {text : String}

/-! ## Writing statements -/

/-- The tokens after a first quoted part, and the text that they add to it: a `+` and one more part,
any number of times. -/
inductive Parts : List (Lined Token) → String → Prop
  | none : Parts [] ""
  | more {ts : List (Lined Token)} {text : String} (plusLine : Nat) (part : String) (line : Nat)
      (rest : Parts ts text) :
      Parts (⟨.word "+", plusLine⟩ :: ⟨.quoted part, line⟩ :: ts) (part ++ text)

/-- The tokens of an argument, of which there may be none, and its text. -/
inductive Argument : List (Lined Token) → Option String → Prop
  | none : Argument [] none
  | word (text : String) (line : Nat) : Argument [⟨.word text, line⟩] (some text)
  | quoted {ts : List (Lined Token)} {text : String} (part : String) (line : Nat)
      (rest : Parts ts text) : Argument (⟨.quoted part, line⟩ :: ts) (some (part ++ text))

/-- The tokens are the keyword, on the line of the header, and the argument. -/
def Header.Written (h : Header) (ts : List (Lined Token)) : Prop :=
  ∃ arg, Argument arg h.argument ∧ ts = ⟨.word h.keyword, h.line⟩ :: arg

/-- The tokens write these statements one after the other, no more than `n` inside one another. -/
inductive Writes : Nat → List (Lined Token) → List Statement → Prop
  | nil (n : Nat) : Writes n [] []
  | short {n : Nat} {h : Header} {hs ts : List (Lined Token)} {ss : List Statement}
      (head : h.Written hs) (line : Nat) (rest : Writes (n + 1) ts ss) :
      Writes (n + 1) (hs ++ ⟨.semicolon, line⟩ :: ts) (h.toStatement [] :: ss)
  | block {n : Nat} {h : Header} {hs us ts : List (Lined Token)} {children ss : List Statement}
      (head : h.Written hs) (line : Nat) (body : Writes n us children) (endLine : Nat)
      (rest : Writes (n + 1) ts ss) :
      Writes (n + 1) (hs ++ ⟨.openBrace, line⟩ :: (us ++ ⟨.closeBrace, endLine⟩ :: ts))
        (h.toStatement children :: ss)

theorem Parts.append (h : Parts ts text) (plusLine : Nat) (part : String) (line : Nat) :
    Parts (ts ++ [⟨.word "+", plusLine⟩, ⟨.quoted part, line⟩]) (text ++ part) := by
  induction h with
  | none => simpa using Parts.more plusLine part line .none
  | more plusLine' first line' rest ih =>
    rw [String.append_assoc]
    exact .more plusLine' first line' ih

theorem Writes.append {rs : List Statement} (h : Writes n ts ss) (k : Writes n us rs) :
    Writes n (ts ++ us) (ss ++ rs) := by
  induction h with
  | nil n => exact k
  | short head line rest ih =>
    rw [List.append_assoc]
    exact .short head line (ih k)
  | block head line body endLine rest _ ih =>
    rw [List.append_assoc, List.cons_append, List.append_assoc]
    exact .block head line body endLine (ih k)

theorem Header.Written.mem (hw : h.Written hs) : ⟨.word h.keyword, h.line⟩ ∈ hs := by
  obtain ⟨arg, _, rfl⟩ := hw
  exact List.mem_cons_self

namespace Reader

variable {r r' : Reader} {e : Lined Failure}

theorem run_cons (r : Reader) (t : Lined Token) (ts : List (Lined Token)) :
    run r (t :: ts) = step r t >>= fun r' => run r' ts :=
  List.foldlM_cons

/-! ## Reading what is written -/

/-- What a body begins with. -/
def Opening (t : Lined Token) : Prop := t.value = .semicolon ∨ t.value = .openBrace

theorem step_more (ht : t.value ≠ .word "+") : step ⟨bs, .more h⟩ t = readBody bs h t :=
  if_neg ht

theorem Opening.not_plus (ht : Opening t) : t.value ≠ .word "+" := by
  rcases ht with ht | ht <;> simp [ht]

theorem run_parts (hp : Parts hs text) (ht : Opening t) {first : String}
    (hf : h.argument = some first) :
    run ⟨bs, .more h⟩ (hs ++ t :: ts) =
      readBody bs { h with argument := some (first ++ text) } t >>= fun r => run r ts := by
  induction hp generalizing h first with
  | none =>
    have hsame : { h with argument := some (first ++ "") } = h := by
      rw [String.append_empty, ← hf]
    rw [hsame, List.nil_append, run_cons, step_more ht.not_plus]
  | more plusLine part line rest ih =>
    have hplus : step ⟨bs, .more h⟩ ⟨.word "+", plusLine⟩ = .ok ⟨bs, .part h plusLine⟩ := rfl
    have hpart : step ⟨bs, .part h plusLine⟩ ⟨.quoted part, line⟩ =
        .ok ⟨bs, .more { h with argument := h.argument.map (· ++ part) }⟩ := rfl
    rw [List.cons_append, List.cons_append, run_cons, hplus]
    show run ⟨bs, .part h plusLine⟩ _ = _
    rw [run_cons, hpart]
    show run ⟨bs, .more { h with argument := h.argument.map (· ++ part) }⟩ _ = _
    have hmapped : h.argument.map (· ++ part) = some (first ++ part) := by
      rw [hf]
      rfl
    rw [ih hmapped, String.append_assoc]

/-- A token that does not close a block begins a statement. -/
theorem step_statement (ht : t.value = .closeBrace → bs = []) :
    step ⟨bs, .statement⟩ t = beginStatement bs t := by
  obtain ⟨value, line⟩ := t
  cases value with
  | closeBrace =>
    rw [ht rfl]
    rfl
  | word text => cases bs <;> rfl
  | quoted text => cases bs <;> rfl
  | openBrace => cases bs <;> rfl
  | semicolon => cases bs <;> rfl

theorem step_keyword (hb : bs.length < maxNesting) (keyword : String) (line : Nat) :
    step ⟨bs, .statement⟩ ⟨.word keyword, line⟩ = .ok ⟨bs, .argument ⟨keyword, none, line⟩⟩ := by
  rw [step_statement (by simp), beginStatement, if_neg (Nat.not_le.2 hb)]

/-- After a header the reader is at the body. -/
theorem run_header (hw : h.Written hs) (hb : bs.length < maxNesting) (ht : Opening t) :
    run ⟨bs, .statement⟩ (hs ++ t :: ts) = readBody bs h t >>= fun r => run r ts := by
  obtain ⟨arg, harg, rfl⟩ := hw
  obtain ⟨keyword, argument, line⟩ := h
  rw [List.cons_append, run_cons, step_keyword hb]
  show run ⟨bs, .argument ⟨keyword, none, line⟩⟩ (arg ++ t :: ts) = _
  cases harg with
  | none =>
    have hbody : step ⟨bs, .argument ⟨keyword, none, line⟩⟩ t =
        readBody bs ⟨keyword, none, line⟩ t := by
      rcases ht with ht | ht <;> simp [step, ht]
    rw [List.nil_append, run_cons, hbody]
  | word text wordLine =>
    have hword : step ⟨bs, .argument ⟨keyword, none, line⟩⟩ ⟨.word text, wordLine⟩ =
        .ok ⟨bs, .body ⟨keyword, some text, line⟩⟩ := rfl
    rw [List.cons_append, run_cons, hword]
    exact run_cons _ t ts
  | quoted part partLine rest =>
    have hquoted : step ⟨bs, .argument ⟨keyword, none, line⟩⟩ ⟨.quoted part, partLine⟩ =
        .ok ⟨bs, .more ⟨keyword, some part, line⟩⟩ := rfl
    rw [List.cons_append, run_cons, hquoted]
    exact run_parts rest ht rfl

/-- Statements written in an open block join it. -/
theorem run_writes (hw : Writes n ts ss) (hb : bs.length + 1 + n ≤ maxNesting) :
    run ⟨b :: bs, .statement⟩ (ts ++ us) =
      run ⟨{ b with children := ss.reverse ++ b.children } :: bs, .statement⟩ us := by
  induction hw generalizing b bs us with
  | nil n => rfl
  | short head line rest ih =>
    have hroom : (b :: bs).length < maxNesting := by
      rw [List.length_cons]
      omega
    rw [List.append_assoc, List.cons_append, run_header head hroom (.inl rfl)]
    show run ⟨{ b with children := _ :: b.children } :: bs, .statement⟩ _ = _
    rw [ih hb, List.reverse_cons, List.append_assoc]
    rfl
  | @block n h hs inner ts children ss head line body endLine rest ihbody ih =>
    have hroom : (b :: bs).length < maxNesting := by
      rw [List.length_cons]
      omega
    have hinner : (b :: bs).length + 1 + n ≤ maxNesting := by
      rw [List.length_cons]
      omega
    rw [List.append_assoc, List.cons_append, List.append_assoc, List.cons_append,
      run_header head hroom (.inr rfl)]
    show run ⟨⟨h, []⟩ :: b :: bs, .statement⟩ _ = _
    rw [ihbody hinner, run_cons, List.append_nil]
    show run ⟨{ b with children := h.toStatement children.reverse.reverse :: b.children } :: bs,
      .statement⟩ _ = _
    rw [ih hb, List.reverse_reverse, List.reverse_cons, List.append_assoc]
    rfl

theorem run_whole (hw : Writes n ts [s]) (hn : n ≤ maxNesting) :
    run start ts = .ok ⟨[], .nothing s⟩ := by
  have hroom : ([] : List Block).length < maxNesting := by decide
  cases hw with
  | short head line rest =>
    cases rest
    exact run_header head hroom (.inl rfl)
  | @block n h hs inner ts children ss head line body endLine rest =>
    cases rest
    have hinner : ([] : List Block).length + 1 + n ≤ maxNesting := by
      rw [List.length_nil]
      omega
    rw [start, run_header head hroom (.inr rfl)]
    show run ⟨[⟨h, []⟩], .statement⟩ _ = _
    rw [run_writes body hinner, List.append_nil, run_cons]
    show Except.ok (⟨[], .nothing (h.toStatement children.reverse.reverse)⟩ : Reader) = _
    rw [List.reverse_reverse]

/-! ## What the tokens read so far have opened -/

/-- The tokens have opened these blocks, innermost first, each with the statements that it holds so
far; no more than `n` statements may enclose one another in the innermost. -/
inductive Opens : Nat → List Block → List (Lined Token) → Prop
  | none : Opens maxNesting [] []
  | block {n : Nat} {b : Block} {bs : List Block} {ts hs us : List (Lined Token)}
      (outer : Opens (n + 1) bs ts) (head : b.header.Written hs) (line : Nat)
      (body : Writes n us b.children.reverse) :
      Opens n (b :: bs) (ts ++ (hs ++ ⟨.openBrace, line⟩ :: us))

/-- The tokens are a keyword and a quoted argument. -/
def Quoted (h : Header) (ts : List (Lined Token)) : Prop :=
  ∃ part line parts text, Parts parts text ∧ h.argument = some (part ++ text) ∧
    ts = ⟨.word h.keyword, h.line⟩ :: ⟨.quoted part, line⟩ :: parts

/-- What the reader knows of the tokens that it has read. -/
inductive Reads : List (Lined Token) → Reader → Prop
  | statement {n : Nat} {bs : List Block} {ts : List (Lined Token)} (opened : Opens n bs ts) :
      Reads ts ⟨bs, .statement⟩
  | argument {n : Nat} {bs : List Block} {ts : List (Lined Token)} (opened : Opens (n + 1) bs ts)
      (keyword : String) (line : Nat) :
      Reads (ts ++ [⟨.word keyword, line⟩]) ⟨bs, .argument ⟨keyword, none, line⟩⟩
  | more {n : Nat} {bs : List Block} {h : Header} {ts hs : List (Lined Token)}
      (opened : Opens (n + 1) bs ts) (head : Quoted h hs) : Reads (ts ++ hs) ⟨bs, .more h⟩
  | part {n : Nat} {bs : List Block} {h : Header} {ts hs : List (Lined Token)}
      (opened : Opens (n + 1) bs ts) (head : Quoted h hs) (plusLine : Nat) :
      Reads (ts ++ (hs ++ [⟨.word "+", plusLine⟩])) ⟨bs, .part h plusLine⟩
  | body {n : Nat} {bs : List Block} {h : Header} {ts hs : List (Lined Token)}
      (opened : Opens (n + 1) bs ts) (head : h.Written hs) : Reads (ts ++ hs) ⟨bs, .body h⟩
  | nothing {s : Statement} {ts : List (Lined Token)} (whole : Writes maxNesting ts [s]) :
      Reads ts ⟨[], .nothing s⟩

theorem Opens.room (ho : Opens n bs ts) : n + bs.length = maxNesting := by
  induction ho with
  | none => rfl
  | block outer head line body ih =>
    rw [List.length_cons]
    omega

theorem Opens.exists_room (ho : Opens n bs ts) (hb : bs.length < maxNesting) :
    ∃ m, Opens (m + 1) bs ts := by
  have hroom := ho.room
  obtain ⟨m, rfl⟩ := Nat.exists_eq_add_one_of_ne_zero (by omega : n ≠ 0)
  exact ⟨m, ho⟩

theorem Quoted.written (hq : Quoted h hs) : h.Written hs := by
  obtain ⟨part, line, parts, text, hparts, harg, rfl⟩ := hq
  exact ⟨_, harg ▸ .quoted part line hparts, rfl⟩

theorem Quoted.append (hq : Quoted h hs) (plusLine : Nat) (part : String) (line : Nat) :
    Quoted { h with argument := h.argument.map (· ++ part) }
      (hs ++ [⟨.word "+", plusLine⟩, ⟨.quoted part, line⟩]) := by
  obtain ⟨first, firstLine, parts, text, hparts, harg, rfl⟩ := hq
  refine ⟨first, firstLine, _, text ++ part, hparts.append plusLine part line, ?_, rfl⟩
  rw [harg, Option.map_some, String.append_assoc]

/-- A statement that is complete has joined the innermost block, or is the whole. -/
theorem reads_complete (ho : Opens n bs ts) (hw : Writes n us [s]) :
    Reads (ts ++ us) (complete bs s) := by
  cases ho with
  | none => exact .nothing hw
  | block outer head line body =>
    rw [List.append_assoc, List.append_assoc, List.cons_append]
    refine .statement (.block (b := ⟨_, s :: _⟩) outer head line ?_)
    rw [List.reverse_cons]
    exact body.append hw

theorem reads_body (ho : Opens (n + 1) bs ts) (hw : h.Written hs) (hr : readBody bs h t = .ok r) :
    Reads (ts ++ hs ++ [t]) r := by
  obtain ⟨value, line⟩ := t
  rw [List.append_assoc]
  cases value with
  | semicolon =>
    cases hr
    exact reads_complete ho (.short hw line (.nil _))
  | openBrace =>
    cases hr
    exact .statement (.block ho hw line (.nil n))
  | word text => cases hr
  | quoted text => cases hr
  | closeBrace => cases hr

theorem beginStatement_eq_ok (h : beginStatement bs t = .ok r) :
    bs.length < maxNesting ∧ ∃ keyword, t.value = .word keyword ∧
      r = ⟨bs, .argument ⟨keyword, none, t.line⟩⟩ := by
  unfold beginStatement at h
  split at h
  · cases h
  · rename_i hroom
    split at h
    · rename_i keyword ht
      cases h
      exact ⟨by omega, keyword, ht, rfl⟩
    · cases h

theorem reads_beginStatement (ho : Opens n bs ts) (hr : beginStatement bs t = .ok r) :
    Reads (ts ++ [t]) r := by
  obtain ⟨hb, keyword, hvalue, rfl⟩ := beginStatement_eq_ok hr
  obtain ⟨m, hm⟩ := ho.exists_room hb
  obtain ⟨value, line⟩ := t
  cases hvalue
  exact .argument hm keyword line

/-- One more token. -/
theorem reads_step (hr : Reads ts r) (hs : step r t = .ok r') : Reads (ts ++ [t]) r' := by
  cases hr with
  | @statement n bs ts opened =>
    by_cases hclose : t.value = .closeBrace
    · cases opened with
      | none =>
        rw [step_statement (fun _ => rfl)] at hs
        exact reads_beginStatement .none hs
      | @block n b bs ts hs' us outer head line body =>
        obtain ⟨value, endLine⟩ := t
        cases hclose
        cases hs
        rw [List.append_assoc, List.append_assoc, List.cons_append]
        exact reads_complete outer (.block head line body endLine (.nil _))
    · rw [step_statement (fun h => absurd h hclose)] at hs
      exact reads_beginStatement opened hs
  | argument opened keyword line =>
    have hw : Header.Written ⟨keyword, none, line⟩ [⟨.word keyword, line⟩] := ⟨[], .none, rfl⟩
    obtain ⟨value, tokenLine⟩ := t
    cases value with
    | word text =>
      cases hs
      rw [List.append_assoc]
      exact .body opened ⟨_, .word text tokenLine, rfl⟩
    | quoted text =>
      cases hs
      rw [List.append_assoc]
      exact .more opened ⟨text, tokenLine, [], "", .none, by rw [String.append_empty], rfl⟩
    | openBrace => exact reads_body opened hw hs
    | closeBrace => exact reads_body opened hw hs
    | semicolon => exact reads_body opened hw hs
  | more opened head =>
    by_cases hplus : t.value = .word "+"
    · obtain ⟨value, plusLine⟩ := t
      cases hplus
      cases hs
      rw [List.append_assoc]
      exact .part opened head plusLine
    · rw [step_more hplus] at hs
      exact reads_body opened head.written hs
  | part opened head plusLine =>
    obtain ⟨value, line⟩ := t
    cases value with
    | quoted text =>
      cases hs
      rw [List.append_assoc, List.append_assoc]
      exact .more opened (head.append plusLine text line)
    | word text => cases hs
    | openBrace => cases hs
    | closeBrace => cases hs
    | semicolon => cases hs
  | body opened head => exact reads_body opened head hs
  | nothing whole => cases hs

theorem reads_run (hr : Reads ts r) (h : run r us = .ok r') : Reads (ts ++ us) r' := by
  induction us generalizing ts r with
  | nil =>
    cases h
    rw [List.append_nil]
    exact hr
  | cons t us ih =>
    obtain ⟨r₁, hs, hrest⟩ := Outcome.foldlM_cons_eq_ok.1 h
    rw [List.append_cons]
    exact ih (reads_step hr hs) hrest

/-! ## What is wrong with the tokens -/

/-- What keeps the tokens from writing one statement, and the token that shows it: the one that is
not expected there, or the keyword whose statement does not end. -/
inductive Faulty : List (Lined Token) → Failure → Lined Token → Prop
  | tooDeep {bs : List Block} {ts : List (Lined Token)} (opened : Opens 0 bs ts)
      (t : Lined Token) (rest : List (Lined Token)) (begins : t.value ≠ .closeBrace) :
      Faulty (ts ++ t :: rest) .nestedTooDeep t
  | noKeyword {n : Nat} {bs : List Block} {ts : List (Lined Token)} (opened : Opens (n + 1) bs ts)
      (t : Lined Token) (rest : List (Lined Token)) (begins : t.value = .closeBrace → bs = [])
      (other : ∀ keyword, t.value ≠ .word keyword) :
      Faulty (ts ++ t :: rest) (.expectedKeyword t.value) t
  | noBody {n : Nat} {bs : List Block} {h : Header} {ts hs : List (Lined Token)}
      (opened : Opens (n + 1) bs ts) (head : h.Written hs) (t : Lined Token)
      (rest : List (Lined Token)) (other : ¬ Opening t) :
      Faulty (ts ++ (hs ++ t :: rest)) (.expectedBody h.keyword t.value) t
  | endOfInput {n : Nat} {bs : List Block} {h : Header} {ts hs : List (Lined Token)}
      (opened : Opens (n + 1) bs ts) (head : h.Written hs) :
      Faulty (ts ++ hs) (.endOfInput h.keyword) ⟨.word h.keyword, h.line⟩
  | openBlock {n : Nat} {b : Block} {bs : List Block} {ts : List (Lined Token)}
      (opened : Opens n (b :: bs) ts) :
      Faulty ts (.unterminatedBlock b.header.keyword) ⟨.word b.header.keyword, b.header.line⟩
  | trailing {s : Statement} {ts : List (Lined Token)} (whole : Writes maxNesting ts [s])
      (t : Lined Token) (rest : List (Lined Token)) : Faulty (ts ++ t :: rest) .trailingContent t

/-- The failure shows at a token, and its line is the line of that token. -/
def Shows (ts : List (Lined Token)) (e : Lined Failure) : Prop :=
  ∃ t, Faulty ts e.value t ∧ e.line = t.line

theorem Faulty.mem {f : Failure} (hf : Faulty ts f t) : t ∈ ts := by
  cases hf with
  | tooDeep opened t rest begins => exact List.mem_append_right _ List.mem_cons_self
  | noKeyword opened t rest begins other => exact List.mem_append_right _ List.mem_cons_self
  | noBody opened head t rest other =>
    exact List.mem_append_right _ (List.mem_append_right _ List.mem_cons_self)
  | endOfInput opened head => exact List.mem_append_right _ head.mem
  | openBlock opened =>
    cases opened with
    | block outer head line body =>
      exact List.mem_append_right _ (List.mem_append_left _ head.mem)
  | trailing whole t rest => exact List.mem_append_right _ List.mem_cons_self

theorem shows_body (ho : Opens (n + 1) bs ts) (hw : h.Written hs)
    (hr : readBody bs h t = .error e) : Shows (ts ++ hs ++ t :: us) e := by
  obtain ⟨value, line⟩ := t
  rw [List.append_assoc]
  cases value with
  | semicolon => cases hr
  | openBrace => cases hr
  | word text =>
    cases hr
    exact ⟨_, .noBody ho hw _ us (by simp [Opening]), rfl⟩
  | quoted text =>
    cases hr
    exact ⟨_, .noBody ho hw _ us (by simp [Opening]), rfl⟩
  | closeBrace =>
    cases hr
    exact ⟨_, .noBody ho hw _ us (by simp [Opening]), rfl⟩

theorem shows_beginStatement (ho : Opens n bs ts) (ht : t.value = .closeBrace → bs = [])
    (hr : beginStatement bs t = .error e) : Shows (ts ++ t :: us) e := by
  have hroom := ho.room
  unfold beginStatement at hr
  split at hr
  · rename_i hdeep
    cases hr
    obtain rfl : n = 0 := by omega
    refine ⟨t, .tooDeep ho t us fun hclose => ?_, rfl⟩
    rw [ht hclose] at hdeep
    contradiction
  · rename_i hb
    obtain ⟨m, hm⟩ := ho.exists_room (by omega)
    split at hr
    · cases hr
    · rename_i hother
      cases hr
      exact ⟨t, .noKeyword hm t us ht hother, rfl⟩

theorem shows_step (hr : Reads ts r) (hs : step r t = .error e) : Shows (ts ++ t :: us) e := by
  cases hr with
  | @statement n bs ts opened =>
    by_cases hclose : t.value = .closeBrace → bs = []
    · rw [step_statement hclose] at hs
      exact shows_beginStatement opened hclose hs
    · -- a block that is open can be closed
      obtain ⟨value, line⟩ := t
      cases bs with
      | nil => exact absurd (fun _ => rfl) hclose
      | cons b bs =>
        obtain rfl : value = .closeBrace := by simpa using hclose
        cases hs
  | argument opened keyword line =>
    have hw : Header.Written ⟨keyword, none, line⟩ [⟨.word keyword, line⟩] := ⟨[], .none, rfl⟩
    obtain ⟨value, tokenLine⟩ := t
    cases value with
    | word text => cases hs
    | quoted text => cases hs
    | openBrace => exact shows_body opened hw hs
    | closeBrace => exact shows_body opened hw hs
    | semicolon => exact shows_body opened hw hs
  | more opened head =>
    by_cases hplus : t.value = .word "+"
    · obtain ⟨value, plusLine⟩ := t
      cases hplus
      cases hs
    · rw [step_more hplus] at hs
      exact shows_body opened head.written hs
  | part opened head plusLine =>
    have hplus : ¬ Opening ⟨.word "+", plusLine⟩ := by simp [Opening]
    rw [List.append_assoc, List.append_assoc, List.singleton_append]
    obtain ⟨value, line⟩ := t
    cases value with
    | quoted text => cases hs
    | word text =>
      cases hs
      exact ⟨_, .noBody opened head.written _ _ hplus, rfl⟩
    | openBrace =>
      cases hs
      exact ⟨_, .noBody opened head.written _ _ hplus, rfl⟩
    | closeBrace =>
      cases hs
      exact ⟨_, .noBody opened head.written _ _ hplus, rfl⟩
    | semicolon =>
      cases hs
      exact ⟨_, .noBody opened head.written _ _ hplus, rfl⟩
  | body opened head => exact shows_body opened head hs
  | nothing whole =>
    cases hs
    exact ⟨t, .trailing whole t us, rfl⟩

theorem shows_run (hr : Reads ts r) (h : run r us = .error e) : Shows (ts ++ us) e := by
  induction us generalizing ts r with
  | nil => cases h
  | cons t us ih =>
    rw [run_cons] at h
    cases hs : step r t with
    | error e' =>
      rw [hs] at h
      cases h
      exact shows_step hr hs
    | ok r' =>
      rw [hs] at h
      rw [List.append_cons]
      exact ih (reads_step hr hs) h

theorem shows_finish (hr : Reads ts r) (h : r.finish = .error e) (hne : ts ≠ []) : Shows ts e := by
  cases hr with
  | @statement n bs ts opened =>
    cases bs with
    | nil =>
      cases opened
      contradiction
    | cons b bs =>
      cases h
      exact ⟨_, .openBlock opened, rfl⟩
  | argument opened keyword line =>
    cases h
    exact ⟨_, .endOfInput opened ⟨[], .none, rfl⟩, rfl⟩
  | more opened head =>
    cases h
    exact ⟨_, .endOfInput opened head.written, rfl⟩
  | part opened head plusLine =>
    cases h
    exact ⟨_, .noBody opened head.written ⟨.word "+", plusLine⟩ [] (by simp [Opening]), rfl⟩
  | body opened head =>
    cases h
    exact ⟨_, .endOfInput opened head, rfl⟩
  | nothing whole => cases h

end Reader

/-- The reader answers just the statement that the tokens write. -/
theorem ofTokens_eq_ok_iff : ofTokens ts = .ok s ↔ Writes maxNesting ts [s] := by
  constructor
  · intro h
    obtain ⟨r, hr, hfinish⟩ := Outcome.bind_eq_ok.1 h
    have hreads := Reader.reads_run (.statement .none) hr
    cases hreads with
    | nothing whole =>
      cases hfinish
      exact whole
    | statement opened => cases opened <;> cases hfinish
    | argument opened keyword line => cases hfinish
    | more opened head => cases hfinish
    | part opened head plusLine => cases hfinish
    | body opened head => cases hfinish
  · intro h
    exact Outcome.bind_eq_ok.2 ⟨_, Reader.run_whole h (Nat.le_refl _), rfl⟩

/-- If they write none, it says at which token that shows. -/
theorem shows_of_ofTokens {e : Lined Failure} (h : ofTokens ts = .error e) (hne : ts ≠ []) :
    Reader.Shows ts e := by
  have hstart : Reader.Reads [] Reader.start := .statement .none
  rcases Outcome.bind_eq_error.1 h with hr | ⟨r, hr, hfinish⟩
  · exact Reader.shows_run hstart hr
  · exact Reader.shows_finish (Reader.reads_run hstart hr) hfinish hne

end MountRegistry.Yang.Statement
