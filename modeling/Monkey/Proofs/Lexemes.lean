import Monkey.Proofs.Lexing

/-!
# Lexemes and their places

A source that can be read falls into lexemes with trivia between them. Nothing is lost and nothing
is read twice, and the place of a token is that of the first character of its lexeme. The lexer
counts lines and columns as it goes; `Position.behind` counts them in the text before a place.

The main notion is `Token.Lexeme`: a text that is read as a token whenever what comes behind does
not go on with it. The end of a source goes on with nothing, so a lexeme is also read as its token
when it stands alone. `lexeme_of_scan` finds a lexeme in everything that the lexer reads.
-/

namespace Monkey

/-! ## Lexemes -/

namespace Token

/-- Whether a character behind the token would be read with it. A slash behind a slash makes a
comment of both. -/
def goesOn : Token → Char → Bool
  | .int _, c => c.isDigit
  | .ident _, c | .letWord, c | .fnWord, c | .trueWord, c | .falseWord, c | .ifWord, c
  | .elseWord, c | .returnWord, c => Text.isWordChar c
  | .assign, c | .bang, c => c = '='
  | .slash, c => c = '/'
  | _, _ => false

/-- The text does not go on with the token. -/
def Ends (token : Token) (rest : List Char) : Prop :=
  ∀ c more, rest = c :: more → token.goesOn c = false

theorem ends_nil (token : Token) : token.Ends [] :=
  nofun

/-- A text that is not skipped and is read as the token, however it goes on, if only not with the
token. -/
def Lexeme (token : Token) (cs : List Char) : Prop :=
  ∃ first more, cs = first :: more ∧ ∀ rest, token.Ends rest →
    (∀ p, skipTrivia false p (cs ++ rest) = (p, cs ++ rest)) ∧
    scan first (more ++ rest) = .ok (token, more.length)

section

variable {first c : Char} {more cs rest : List Char} {token : Token} {width : Nat}

theorem takeWhile_ends {p : Char → Bool} (hcs : ∀ c ∈ cs, p c)
    (hrest : ∀ c more, rest = c :: more → p c = false) : (cs ++ rest).takeWhile p = cs := by
  cases rest with
  | nil => rw [List.append_nil, List.takeWhile_eq_self_iff.2 hcs]
  | cons c more => exact takeWhile_until hcs (by simp [hrest c more rfl])

/-- What a string has up to its closing quote does not depend on what comes behind. -/
theorem scanString_split {taken : Nat} {text : String}
    (h : scanString taken text cs = .ok (token, width)) :
    (∃ text', token = .str text') ∧ ∃ body rest, cs = body ++ '"' :: rest ∧
      width = taken + body.length + 1 ∧
      ∀ rest', scanString taken text (body ++ '"' :: rest') = .ok (token, width) := by
  fun_induction scanString taken text cs with
  | case1 => cases h
  | case2 taken text rest =>
      cases h
      exact ⟨⟨_, rfl⟩, [], rest, rfl, rfl, fun _ => rfl⟩
  | case3 => cases h
  | case4 taken text c cs d hd ih =>
      obtain ⟨htoken, body, rest, rfl, rfl, hbody⟩ := ih h
      refine ⟨htoken, '\\' :: c :: body, rest, rfl, ?_, fun rest' => ?_⟩
      · simp only [List.length_cons]
        omega
      · rw [List.cons_append, List.cons_append, scanString, hd]
        exact hbody rest'
  | case5 => cases h
  | case6 taken text c cs hquote hlone hescape ih =>
      obtain ⟨htoken, body, rest, rfl, rfl, hbody⟩ := ih h
      have hbackslash : c ≠ '\\' := by
        rintro rfl
        cases hcs : body ++ '"' :: rest with
        | nil => exact hlone rfl hcs
        | cons c' cs' => exact hescape c' cs' rfl hcs
      refine ⟨htoken, c :: body, rest, rfl, ?_, fun rest' => ?_⟩
      · simp only [List.length_cons]
        omega
      · rw [List.cons_append, scanString_raw hquote hbackslash]
        exact hbody rest'

theorem goesOn_ofWord (word : String) (c : Char) : (ofWord word).goesOn c = Text.isWordChar c := by
  rw [ofWord, keyword?]
  repeat' split
  all_goals rfl

theorem ofWord_ne_finish (word : String) : ofWord word ≠ .finish := by
  rw [ofWord, keyword?]
  repeat' split
  all_goals
    intro h
    cases h

theorem lexeme_of_string (h : scanString 0 "" cs = .ok (token, width)) :
    ∃ more rest, cs = more ++ rest ∧ width = more.length ∧ token ≠ .finish ∧
      token.Lexeme ('"' :: more) := by
  obtain ⟨⟨text, rfl⟩, body, rest, rfl, rfl, hbody⟩ := scanString_split h
  refine ⟨body ++ ['"'], rest, by simp, by simp, nofun, '"', body ++ ['"'], rfl,
    fun rest' _ => ⟨fun p => skipTrivia_stop (by decide) (.inl (by decide)), ?_⟩⟩
  rw [scan, if_pos rfl, List.append_assoc, List.singleton_append, hbody rest']
  simp

theorem lexeme_of_digits (hfirst : first.isDigit)
    (h : ofDigits (first :: cs.takeWhile Char.isDigit) = .ok token) :
    token ≠ .finish ∧ token.Lexeme (first :: cs.takeWhile Char.isDigit) := by
  have hmore : ∀ c ∈ cs.takeWhile Char.isDigit, c.isDigit := fun c hc => List.mem_takeWhile_imp hc
  generalize cs.takeWhile Char.isDigit = more at *
  obtain ⟨n, rfl⟩ : ∃ n, token = .int n := by
    rw [ofDigits] at h
    split at h <;> cases h
    exact ⟨_, rfl⟩
  obtain ⟨hblank, hslash, hquote⟩ := Text.apart_of_isDigit hfirst
  refine ⟨by rintro ⟨⟩, first, more, rfl, fun rest hrest => ?_⟩
  refine ⟨fun p => skipTrivia_stop hblank (.inl hslash), ?_⟩
  rw [scan, if_neg hquote, if_pos hfirst, takeWhile_ends hmore hrest]
  dsimp only
  rw [h]

theorem lexeme_of_word (hfirst : Text.isWordStart first) :
    (ofWord (String.ofList (first :: cs.takeWhile Text.isWordChar))).Lexeme
      (first :: cs.takeWhile Text.isWordChar) := by
  have hmore : ∀ c ∈ cs.takeWhile Text.isWordChar, Text.isWordChar c :=
    fun c hc => List.mem_takeWhile_imp hc
  generalize cs.takeWhile Text.isWordChar = more at *
  obtain ⟨hblank, hslash, hquote, hdigit⟩ := Text.apart_of_isWordStart hfirst
  refine ⟨first, more, rfl, fun rest hrest => ?_⟩
  refine ⟨fun p => skipTrivia_stop hblank (.inl hslash), ?_⟩
  simp only [Ends, goesOn_ofWord] at hrest
  rw [scan, if_neg hquote, if_neg hdigit, if_pos hfirst, takeWhile_ends hmore hrest]

theorem lexeme_operator (hblank : ¬Text.isBlank first) (hquote : first ≠ '"')
    (hdigit : ¬first.isDigit) (hword : ¬Text.isWordStart first)
    (hslash : first = '/' → token = .slash ∧ more = [])
    (hoperator : ∀ rest, token.Ends rest →
      operator? first (more ++ rest) = some (token, more.length)) :
    token.Lexeme (first :: more) := by
  refine ⟨first, more, rfl, fun rest hrest => ?_⟩
  have hcomment : first ≠ '/' ∨ ¬startsWithSlash (more ++ rest) := by
    rw [← imp_iff_not_or]
    intro hfirst
    obtain ⟨rfl, rfl⟩ := hslash hfirst
    cases rest with
    | nil => exact Bool.false_ne_true
    | cons c rest =>
        rw [List.nil_append, startsWithSlash]
        · exact Bool.false_ne_true
        · rintro _ ⟨⟩
          exact absurd (hrest _ _ rfl) (by decide)
  refine ⟨fun p => skipTrivia_stop hblank hcomment, ?_⟩
  rw [scan, if_neg hquote, if_neg hdigit, if_neg hword, hoperator rest hrest]

theorem operator?_assign (h : Token.assign.Ends rest) : operator? '=' rest = some (.assign, 0) := by
  cases rest with
  | nil => rfl
  | cons c rest => exact (operator?_of_ne (of_decide_eq_false (h c rest rfl))).1

theorem operator?_bang (h : Token.bang.Ends rest) : operator? '!' rest = some (.bang, 0) := by
  cases rest with
  | nil => rfl
  | cons c rest => exact (operator?_of_ne (of_decide_eq_false (h c rest rfl))).2

theorem lexeme_of_operator (h : operator? first cs = some (token, width)) :
    ∃ more rest, cs = more ++ rest ∧ width = more.length ∧ token ≠ .finish ∧
      token.Lexeme (first :: more) := by
  unfold operator? at h
  split at h
  · next rest =>
      cases h
      exact ⟨['='], rest, rfl, rfl, nofun, lexeme_operator (by decide) (by decide) (by decide)
        (by decide) (by decide) fun _ _ => rfl⟩
  · next rest =>
      cases h
      exact ⟨['='], rest, rfl, rfl, nofun, lexeme_operator (by decide) (by decide) (by decide)
        (by decide) (by decide) fun _ _ => rfl⟩
  · cases h
    exact ⟨[], cs, rfl, rfl, nofun, lexeme_operator (by decide) (by decide) (by decide)
      (by decide) (by decide) fun _ => operator?_assign⟩
  · cases h
    exact ⟨[], cs, rfl, rfl, nofun, lexeme_operator (by decide) (by decide) (by decide)
      (by decide) (by decide) fun _ => operator?_bang⟩
  all_goals
    cases h
  all_goals
    exact ⟨[], cs, rfl, rfl, nofun, lexeme_operator (by decide) (by decide) (by decide)
      (by decide) (by decide) fun _ _ => rfl⟩

/-- Whatever the lexer reads as a token is a lexeme of it. -/
theorem lexeme_of_scan (h : scan c cs = .ok (token, width)) :
    ∃ more rest, cs = more ++ rest ∧ width = more.length ∧ token ≠ .finish ∧
      token.Lexeme (c :: more) := by
  rw [scan] at h
  split at h
  · next hquote =>
      subst hquote
      exact lexeme_of_string h
  · split at h
    · next hdigit =>
        dsimp only at h
        split at h <;> cases h
        next htoken =>
          obtain ⟨hfinish, hlexeme⟩ := lexeme_of_digits hdigit htoken
          exact ⟨_, _, List.takeWhile_append_dropWhile.symm, rfl, hfinish, hlexeme⟩
    · split at h
      · next hword =>
          cases h
          exact ⟨_, _, List.takeWhile_append_dropWhile.symm, rfl, ofWord_ne_finish _,
            lexeme_of_word hword⟩
      · split at h <;> cases h
        next hoperator => exact lexeme_of_operator hoperator

/-- What is read as a token in front of a blank is a lexeme of it. -/
theorem Scans.lexeme (h : Scans token cs) : token.Lexeme cs := by
  obtain ⟨first, more, rfl, hscans⟩ := h
  obtain ⟨more', rest, heq, hlength, -, hlexeme⟩ := lexeme_of_scan (hscans ' ' [] (by decide)).2
  obtain ⟨rfl, -⟩ := List.append_inj heq hlength
  exact hlexeme

end

end Token

/-! ## Trivia -/

/-- Trivia at the end of a source, where a comment needs no newline. -/
def EndTrivia (cs : List Char) : Prop :=
  Trivia cs ∨ ∃ gap body, Trivia gap ∧ '\n' ∉ body ∧ cs = gap ++ '/' :: '/' :: body

section

variable {c : Char} {cs body : List Char} {p : Position}

theorem EndTrivia.blank (hc : Text.isBlank c) (h : EndTrivia cs) : EndTrivia (c :: cs) := by
  obtain h | ⟨gap, body, hgap, hbody, rfl⟩ := h
  · exact .inl (.blank hc h)
  · exact .inr ⟨c :: gap, body, .blank hc hgap, hbody, rfl⟩

theorem EndTrivia.comment (hbody : '\n' ∉ body) (h : EndTrivia cs) :
    EndTrivia ('/' :: '/' :: (body ++ '\n' :: cs)) := by
  obtain h | ⟨gap, body', hgap, hbody', rfl⟩ := h
  · exact .inl (.comment hbody h)
  · exact .inr ⟨'/' :: '/' :: (body ++ '\n' :: gap), body', .comment hbody hgap, hbody', by simp⟩

theorem skipTrivia_openComment (hbody : '\n' ∉ body) :
    skipTrivia true p body = (p.past body, []) := by
  induction body generalizing p with
  | nil => rfl
  | cons c body ih =>
      obtain ⟨hc, hbody⟩ := not_or.1 (List.mem_cons.not.1 hbody)
      have hopen : (c != '\n') = true := bne_iff_ne.2 (Ne.symm hc)
      rw [skipTrivia, if_pos rfl, hopen, ih hbody]
      rfl

theorem eq_cons_of_startsWithSlash (h : startsWithSlash cs) : ∃ cs', cs = '/' :: cs' := by
  unfold startsWithSlash at h
  split at h
  · exact ⟨_, rfl⟩
  · cases h

/-- What is skipped are trivia, and the place is moved past them. -/
theorem skipTrivia_split (p : Position) (cs : List Char) :
    ∃ gap rest, cs = gap ++ rest ∧ skipTrivia false p cs = (p.past gap, rest) ∧
      EndTrivia gap ∧ (rest ≠ [] → Trivia gap) := by
  -- a comment is left behind as a whole, so the induction is on the length
  induction hlength : cs.length using Nat.strongRecOn generalizing p cs with
  | _ n ih =>
  cases cs with
  | nil => exact ⟨[], [], rfl, rfl, .inl .nil, fun _ => .nil⟩
  | cons c cs =>
      rw [List.length_cons] at hlength
      by_cases hblank : Text.isBlank c
      · obtain ⟨gap, rest, rfl, hskip, hend, hgap⟩ := ih _ (by omega) (p.next c) cs rfl
        refine ⟨c :: gap, rest, rfl, ?_, hend.blank hblank, fun h => .blank hblank (hgap h)⟩
        rw [skipTrivia, if_neg Bool.false_ne_true, if_pos hblank, hskip]
        rfl
      by_cases hcomment : c ≠ '/' ∨ ¬startsWithSlash cs
      · exact ⟨[], c :: cs, rfl, skipTrivia_stop hblank hcomment, .inl .nil, fun _ => .nil⟩
      obtain ⟨hfirst, hslash⟩ := not_or.1 hcomment
      obtain rfl := not_not.1 hfirst
      obtain ⟨cs, rfl⟩ := eq_cons_of_startsWithSlash (not_not.1 hslash)
      have hopen : skipTrivia false p ('/' :: '/' :: cs) =
          skipTrivia true ((p.next '/').next '/') cs := rfl
      rw [hopen]
      by_cases hnewline : '\n' ∈ cs
      · obtain ⟨body, after, rfl, hbody⟩ := List.eq_append_cons_of_mem hnewline
        simp only [List.length_cons, List.length_append] at hlength
        obtain ⟨gap, rest, rfl, hskip, hend, hgap⟩ := ih _ (by omega)
          (((p.next '/').next '/').past (body ++ ['\n'])) after rfl
        refine ⟨'/' :: '/' :: (body ++ '\n' :: gap), rest, by simp, ?_, hend.comment hbody,
          fun h => .comment hbody (hgap h)⟩
        rw [skipTrivia_comment hbody, hskip]
        simp [Position.past]
      · refine ⟨'/' :: '/' :: cs, [], by simp, ?_, .inr ⟨[], cs, .nil, hnewline, rfl⟩,
          fun h => absurd rfl h⟩
        rw [skipTrivia_openComment hnewline]
        rfl

end

/-! ## Places -/

namespace Position

/-- The place behind a text: a line more than it has newlines, and a column more than it has
characters behind the last of them. -/
def behind (before : List Char) : Position :=
  ⟨1 + before.count '\n', 1 + (before.reverse.takeWhile (· ≠ '\n')).length⟩

/-- A place is before another one in the order of lines and then of columns. -/
def Before (p q : Position) : Prop :=
  p.line < q.line ∨ p.line = q.line ∧ p.column < q.column

theorem next_behind (before : List Char) (c : Char) :
    (behind before).next c = behind (before ++ [c]) := by
  by_cases hc : c = '\n'
  · subst hc
    simp [next, behind, Nat.add_assoc]
  · simp [next, behind, hc, Nat.add_comm]

theorem past_behind (before cs : List Char) :
    (behind before).past cs = behind (before ++ cs) := by
  induction cs generalizing before with
  | nil => rw [List.append_nil]; rfl
  | cons c cs ih =>
      rw [List.append_cons, ← ih (before ++ [c]), ← next_behind]
      rfl

theorem Before.trans {p q r : Position} (h : p.Before q) (h' : q.Before r) : p.Before r := by
  unfold Before at *
  omega

theorem before_next (p : Position) (c : Char) : p.Before (p.next c) := by
  rw [next]
  split
  · exact .inl (Nat.lt_succ_self _)
  · exact .inr ⟨rfl, Nat.lt_succ_self _⟩

theorem before_past (p : Position) {cs : List Char} (h : cs ≠ []) : p.Before (p.past cs) := by
  induction cs generalizing p with
  | nil => exact absurd rfl h
  | cons c cs ih =>
      cases cs with
      | nil => exact p.before_next c
      | cons c' cs => exact (p.before_next c).trans (ih (p.next c) nofun)

end Position

/-! ## Whole sources -/

theorem Token.Lexeme.tokenize {token : Token} {cs : List Char} (h : token.Lexeme cs) :
    tokenize (String.ofList cs) = .ok [⟨token, {}⟩, ⟨.finish, .behind cs⟩] := by
  obtain ⟨first, more, rfl, hlexeme⟩ := h
  obtain ⟨hskip, hscan⟩ := hlexeme [] token.ends_nil
  rw [List.append_nil] at hskip hscan
  have hplace : Position.past {} (first :: more) = .behind (first :: more) :=
    Position.past_behind [] (first :: more)
  rw [Monkey.tokenize, String.toList_ofList, tokenizeFrom_token (hskip {}) hscan, List.take_length,
    List.drop_length, hplace, tokenizeFrom_finish rfl]
  rfl

/-- A part of a source that ends with a token. -/
structure Piece where
  /-- What stands before the lexeme. -/
  gap : List Char
  lexeme : List Char
  token : Token

namespace Piece

/-- The text of a piece. -/
def text (piece : Piece) : List Char :=
  piece.gap ++ piece.lexeme

/-- There are only trivia before the lexeme, which by itself is read as the token. -/
structure Sound (piece : Piece) : Prop where
  gap : Trivia piece.gap
  ne_nil : piece.lexeme ≠ []
  ne_finish : piece.token ≠ .finish
  alone : tokenize (String.ofList piece.lexeme) =
    .ok [⟨piece.token, {}⟩, ⟨.finish, .behind piece.lexeme⟩]

/-- The tokens of pieces that follow some text, each with the place of its lexeme. -/
def locate (before : List Char) : List Piece → List Located
  | [] => []
  | piece :: pieces =>
      ⟨piece.token, .behind (before ++ piece.gap)⟩ :: locate (before ++ piece.text) pieces

theorem sound_of_lexeme {gap lexeme : List Char} {token : Token} (hgap : Trivia gap)
    (hfinish : token ≠ .finish) (h : token.Lexeme lexeme) : Sound ⟨gap, lexeme, token⟩ where
  gap := hgap
  ne_nil := by
    obtain ⟨first, more, rfl, -⟩ := h
    exact List.cons_ne_nil _ _
  ne_finish := hfinish
  alone := h.tokenize

/-- The places of tokens that follow some text are places behind it. -/
theorem exists_behind_of_mem_locate {before : List Char} {pieces : List Piece} {t : Located}
    (h : t ∈ locate before pieces) : ∃ cs, t.position = .behind (before ++ cs) := by
  induction pieces generalizing before with
  | nil => cases h
  | cons piece pieces ih =>
      rcases List.mem_cons.1 h with rfl | h
      · exact ⟨piece.gap, rfl⟩
      · obtain ⟨cs, hcs⟩ := ih h
        exact ⟨piece.text ++ cs, by rw [hcs, List.append_assoc]⟩

/-- Lexemes are not empty, so each token is before those that follow. -/
theorem pairwise_locate {before rest : List Char} {pieces : List Piece}
    (h : ∀ piece ∈ pieces, piece.lexeme ≠ []) :
    List.Pairwise (fun t t' : Located => t.position.Before t'.position)
      (locate before pieces ++ [⟨.finish, .behind (before ++ (pieces.flatMap text ++ rest))⟩]) := by
  induction pieces generalizing before with
  | nil => exact List.pairwise_singleton _ _
  | cons piece pieces ih =>
      obtain ⟨hne, h⟩ := List.forall_mem_cons.1 h
      have hbefore : ∀ cs, (Position.behind (before ++ piece.gap)).Before
          (.behind (before ++ piece.text ++ cs)) := by
        intro cs
        have hplace := Position.before_past (.behind (before ++ piece.gap))
          (List.append_ne_nil_of_left_ne_nil hne cs)
        rw [Position.past_behind] at hplace
        simpa only [text, List.append_assoc] using hplace
      have hrest := @ih (before ++ piece.text) h
      rw [locate, List.cons_append, List.flatMap_cons, List.append_assoc piece.text,
        ← List.append_assoc before]
      refine List.pairwise_cons.2 ⟨fun t ht => ?_, hrest⟩
      rcases List.mem_append.1 ht with ht | ht
      · obtain ⟨cs, hcs⟩ := exists_behind_of_mem_locate ht
        rw [hcs]
        exact hbefore cs
      · rw [List.mem_singleton.1 ht]
        exact hbefore _

end Piece

theorem tokenizeFrom_fault {p start : Position} {c : Char} {source cs : List Char}
    {done : List Located} {cause : LexFault × Nat}
    (h : skipTrivia false p source = (start, c :: cs)) (hscan : Token.scan c cs = .error cause) :
    tokenizeFrom p source done = .error ⟨cause.1, start.past ((c :: cs).take cause.2)⟩ := by
  rw [tokenizeFrom]
  split
  · next hskip =>
      rw [h] at hskip
      cases hskip
  · next hskip =>
      rw [h] at hskip
      cases hskip
      rw [hscan]

theorem tokenizeFrom_pieces {before source : List Char} {done located : List Located}
    (h : tokenizeFrom (.behind before) source done = .ok located) :
    ∃ pieces rest, source = pieces.flatMap Piece.text ++ rest ∧ (∀ piece ∈ pieces, piece.Sound) ∧
      EndTrivia rest ∧ located = done.reverse ++ (Piece.locate before pieces ++
        [⟨.finish, .behind (before ++ source)⟩]) := by
  induction hlength : source.length using Nat.strongRecOn generalizing before source done with
  | _ n ih =>
  obtain ⟨gap, tail, rfl, hskip, hend, hgap⟩ := skipTrivia_split (.behind before) source
  rw [Position.past_behind] at hskip
  cases tail with
  | nil =>
      rw [tokenizeFrom_finish hskip, List.reverse_cons] at h
      cases h
      refine ⟨[], gap, by simp, List.forall_mem_nil _, hend, ?_⟩
      rw [List.append_nil]
      rfl
  | cons c cs =>
      cases hscan : Token.scan c cs with
      | error cause =>
          rw [tokenizeFrom_fault hskip hscan] at h
          cases h
      | ok found =>
          obtain ⟨token, width⟩ := found
          obtain ⟨more, rest, rfl, rfl, hfinish, hlexeme⟩ := Token.lexeme_of_scan hscan
          have hsound := Piece.sound_of_lexeme (hgap (List.cons_ne_nil _ _)) hfinish hlexeme
          rw [tokenizeFrom_token hskip hscan, List.take_left, List.drop_left,
            Position.past_behind] at h
          simp only [List.length_append, List.length_cons] at hlength
          obtain ⟨pieces, last, rfl, hsounds, hlast, rfl⟩ := ih _ (by omega) h rfl
          refine ⟨⟨gap, c :: more, token⟩ :: pieces, last, by simp [Piece.text],
            List.forall_mem_cons.2 ⟨hsound, hsounds⟩, hlast, ?_⟩
          simp [Piece.locate, Piece.text]

/-- A source that can be read is a sequence of lexemes with trivia before each of them and at the
end. Its tokens are those of the lexemes, at the places where these start, and one `finish` at the
end of the source; they are in the order of their places. -/
theorem tokenize_pieces {source : String} {located : List Located}
    (h : tokenize source = .ok located) :
    ∃ pieces rest, source.toList = pieces.flatMap Piece.text ++ rest ∧
      (∀ piece ∈ pieces, piece.Sound) ∧ EndTrivia rest ∧
      located = Piece.locate [] pieces ++ [⟨.finish, .behind source.toList⟩] ∧
      located.Pairwise fun t t' => t.position.Before t'.position := by
  obtain ⟨pieces, rest, hsource, hsound, hrest, hlocated⟩ :=
    tokenizeFrom_pieces (show tokenizeFrom (.behind []) source.toList [] = .ok located from h)
  rw [List.reverse_nil, List.nil_append, List.nil_append] at hlocated
  refine ⟨pieces, rest, hsource, hsound, hrest, hlocated, ?_⟩
  rw [hlocated, hsource]
  exact @Piece.pairwise_locate [] rest pieces fun piece hpiece => (hsound piece hpiece).ne_nil

/-- A string over two lines with an escaped quote, characters of several bytes, an operator of two
characters, and a comment that is not ended. -/
def Piece.linesSample : String :=
  "\"é\n\\\"\"x // ü\n\t!=7//"

/-- The tokens of the sample. -/
def Piece.linesTokens : List Located :=
  [⟨.str "é\n\"", ⟨1, 1⟩⟩, ⟨.ident "x", ⟨2, 4⟩⟩, ⟨.notEqual, ⟨3, 2⟩⟩, ⟨.int 7, ⟨3, 4⟩⟩,
    ⟨.finish, ⟨3, 7⟩⟩]

theorem tokenize_pieces_linesSample :
    tokenize Piece.linesSample = .ok Piece.linesTokens ∧
      ∃ pieces rest, Piece.linesSample.toList = pieces.flatMap Piece.text ++ rest ∧
        (∀ piece ∈ pieces, piece.Sound) ∧ EndTrivia rest ∧
        Piece.linesTokens =
          Piece.locate [] pieces ++ [⟨.finish, .behind Piece.linesSample.toList⟩] ∧
        Piece.linesTokens.Pairwise fun t t' => t.position.Before t'.position := by
  have hlex : tokenize Piece.linesSample = .ok Piece.linesTokens := by decide +kernel
  exact ⟨hlex, tokenize_pieces hlex⟩

end Monkey
