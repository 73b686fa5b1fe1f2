import Monkey.Error
import Monkey.Proofs.Lexemes
import Monkey.Proofs.Printing
import Monkey.Syntax.Render

/-!
# Canonical text reads back

Canonical text has no quotes around strings and no braces around blocks, so in general it cannot be
read. `Program.parse_render` says that it can where there are none of these: a plain tree is read
back from its text. There operators and indexing are in parentheses, but calls and collections are
not, and words stand close together.

The text of a tree is made of the texts of its parts since each writer only appends
(`hereditary_appends`). `Spelled` is what a lexer needs of a text without blanks: each lexeme comes
before something that it does not go on with. `Legible` is the induction's invariant, about the text
and about the words at once: in front of a delimiter the text spells certain words, and the words
are read as the tree in whatever context they stand.
-/

namespace Monkey

attribute [local simp] Expr.write Stmt.write writeNames writeBlock writeAlternative writeItems
  writePairs writePair

/-! ## What is written is appended -/

/-- A writer appends a text, the same to all that was written before. -/
def Appends (write : String → String) : Prop :=
  ∃ cs, ∀ out, (write out).toList = out.toList ++ cs

theorem Appends.toList_eq {write : String → String} (h : Appends write) (out : String) :
    (write out).toList = out.toList ++ (write "").toList := by
  obtain ⟨cs, h⟩ := h
  rw [h out, h "", String.toList_empty, List.nil_append]

theorem appends_writeNames (names : List String) : Appends fun out => writeNames out names := by
  induction names with
  | nil => exact ⟨[], fun out => by simp [writeNames]⟩
  | cons name names ih =>
      obtain ⟨cs, hcs⟩ := ih
      cases names with
      | nil => exact ⟨name.toList, fun out => by simp [writeNames]⟩
      | cons name' names =>
          exact ⟨name.toList ++ (", ".toList ++ cs), fun out => by simp [writeNames, hcs]⟩

theorem appends_writeBlock {body : List Stmt} (h : ∀ s ∈ body, Appends s.write) :
    Appends fun out => writeBlock out body := by
  induction body with
  | nil => exact ⟨[], fun out => by simp [writeBlock]⟩
  | cons s body ih =>
      obtain ⟨⟨cs, hs⟩, hbody⟩ := List.forall_mem_cons.1 h
      obtain ⟨cs', hbody⟩ := ih hbody
      exact ⟨cs ++ cs', fun out => by simp [writeBlock, hbody, hs]⟩

theorem appends_writeItems {items : List Expr} (h : ∀ e ∈ items, Appends e.write) (first : Bool) :
    Appends fun out => writeItems out first items := by
  induction items generalizing first with
  | nil => exact ⟨[], fun out => by simp [writeItems]⟩
  | cons e items ih =>
      obtain ⟨⟨cs, he⟩, hitems⟩ := List.forall_mem_cons.1 h
      obtain ⟨cs', hitems⟩ := ih hitems false
      refine ⟨(if first then [] else ", ".toList) ++ (cs ++ cs'), fun out => ?_⟩
      cases first <;> simp [writeItems, hitems, he]

theorem appends_writePairs {pairs : List (Expr × Expr)}
    (h : ∀ p ∈ pairs, Appends p.1.write ∧ Appends p.2.write) (first : Bool) :
    Appends fun out => writePairs out first pairs := by
  induction pairs generalizing first with
  | nil => exact ⟨[], fun out => by simp [writePairs]⟩
  | cons p pairs ih =>
      obtain ⟨key, value⟩ := p
      obtain ⟨⟨⟨ck, hkey⟩, ⟨cv, hvalue⟩⟩, hpairs⟩ := List.forall_mem_cons.1 h
      obtain ⟨cs, hpairs⟩ := ih hpairs false
      refine ⟨(if first then [] else ", ".toList) ++ (ck ++ ':' :: (cv ++ cs)), fun out => ?_⟩
      cases first <;> simp [writePairs, writePair, hpairs, hkey, hvalue]

theorem hereditary_appends : Hereditary (fun e => Appends e.write) fun s => Appends s.write where
  ident name := ⟨name.toList, fun out => by simp [Expr.write]⟩
  int value := ⟨(toString value.toInt).toList, fun out => by simp [Expr.write]⟩
  str text := ⟨text.toList, fun out => by simp [Expr.write]⟩
  bool value := ⟨(if value then "true" else "false").toList, fun out => by simp [Expr.write]⟩
  prefixOp op e := by
    rintro ⟨cs, he⟩
    exact ⟨'(' :: (op.toList ++ (cs ++ [')'])), fun out => by simp [Expr.write, he]⟩
  infixOp op l r := by
    rintro ⟨cl, hl⟩ ⟨cr, hr⟩
    exact ⟨'(' :: (cl ++ ' ' :: (op.toList ++ ' ' :: (cr ++ [')']))),
      fun out => by simp [Expr.write, hl, hr]⟩
  cond c b b' := by
    rintro ⟨cs, hc⟩ hb hb'
    obtain ⟨cb, hb⟩ := appends_writeBlock hb
    cases b' with
    | none =>
        exact ⟨"if".toList ++ (cs ++ ' ' :: cb), fun out => by
          simp [Expr.write, writeAlternative, hb, hc]⟩
    | some body =>
        obtain ⟨cb', hb'⟩ := appends_writeBlock (hb' body rfl)
        exact ⟨"if".toList ++ (cs ++ ' ' :: (cb ++ ("else ".toList ++ cb'))), fun out => by
          simp [Expr.write, writeAlternative, hb', hb, hc]⟩
  function xs b name hb := by
    obtain ⟨cx, hxs⟩ := appends_writeNames xs
    obtain ⟨cb, hb⟩ := appends_writeBlock hb
    cases name with
    | none =>
        exact ⟨"fn(".toList ++ (cx ++ (") ".toList ++ cb)),
          fun out => by simp [Expr.write, hb, hxs]⟩
    | some name =>
        exact ⟨"fn<".toList ++ (name.toList ++ (">(".toList ++ (cx ++ (") ".toList ++ cb)))),
          fun out => by simp [Expr.write, hb, hxs]⟩
  call f args := by
    rintro ⟨cf, hf⟩ hargs
    obtain ⟨cs, hargs⟩ := appends_writeItems hargs true
    exact ⟨cf ++ '(' :: (cs ++ [')']), fun out => by simp [Expr.write, hargs, hf]⟩
  index c i := by
    rintro ⟨cc, hc⟩ ⟨ci, hi⟩
    exact ⟨'(' :: (cc ++ '[' :: (ci ++ "])".toList)), fun out => by simp [Expr.write, hc, hi]⟩
  array es hes := by
    obtain ⟨cs, hes⟩ := appends_writeItems hes true
    exact ⟨'[' :: (cs ++ [']']), fun out => by simp [Expr.write, hes]⟩
  hash ps hps := by
    obtain ⟨cs, hps⟩ := appends_writePairs hps true
    exact ⟨'\x7b' :: (cs ++ ['\x7d']), fun out => by simp [Expr.write, hps]⟩
  bind x e := by
    rintro ⟨cs, he⟩
    exact ⟨"let ".toList ++ (x.toList ++ (" = ".toList ++ (cs ++ [';']))),
      fun out => by simp [Stmt.write, he]⟩
  ret e := by
    rintro ⟨cs, he⟩
    exact ⟨"return ".toList ++ (cs ++ [';']), fun out => by simp [Stmt.write, he]⟩
  value e := by
    rintro ⟨cs, he⟩
    exact ⟨cs, fun out => by simp [Stmt.write, he]⟩

/-! ## Canonical text, part by part -/

theorem toList_writeItems (out : String) (first : Bool) (items : List Expr) :
    (writeItems out first items).toList = out.toList ++ (writeItems "" first items).toList :=
  (appends_writeItems (fun e _ => hereditary_appends.expr e) first).toList_eq out

theorem toList_writePairs (out : String) (first : Bool) (pairs : List (Expr × Expr)) :
    (writePairs out first pairs).toList = out.toList ++ (writePairs "" first pairs).toList :=
  (appends_writePairs (fun p _ => ⟨hereditary_appends.expr p.1, hereditary_appends.expr p.2⟩)
    first).toList_eq out

theorem toList_writeBlock (out : String) (body : List Stmt) :
    (writeBlock out body).toList = out.toList ++ (writeBlock "" body).toList :=
  (appends_writeBlock fun s _ => hereditary_appends.stmt s).toList_eq out

namespace Expr

theorem toList_write (e : Expr) (out : String) :
    (e.write out).toList = out.toList ++ e.render.toList :=
  (hereditary_appends.expr e).toList_eq out

theorem toList_prefixOp (op : String) (e : Expr) :
    (prefixOp op e).render.toList = '(' :: (op.toList ++ (e.render.toList ++ [')'])) := by
  show ((prefixOp op e).write "").toList = _
  simp [write, toList_write]

theorem toList_infixOp (op : String) (l r : Expr) :
    (infixOp op l r).render.toList =
      '(' :: (l.render.toList ++ ' ' :: (op.toList ++ ' ' :: (r.render.toList ++ [')']))) := by
  show ((infixOp op l r).write "").toList = _
  simp [write, toList_write]

theorem toList_call (f : Expr) (args : List Expr) :
    (call f args).render.toList =
      f.render.toList ++ '(' :: ((writeItems "" true args).toList ++ [')']) := by
  show ((call f args).write "").toList = _
  rw [write, String.toList_push, toList_writeItems, String.toList_push, toList_write]
  simp

theorem toList_index (c i : Expr) :
    (index c i).render.toList =
      '(' :: (c.render.toList ++ '[' :: (i.render.toList ++ [']', ')'])) := by
  show ((index c i).write "").toList = _
  simp [write, toList_write]

theorem toList_array (es : List Expr) :
    (array es).render.toList = '[' :: ((writeItems "" true es).toList ++ [']']) := by
  show ((array es).write "").toList = _
  rw [write, String.toList_push, toList_writeItems, String.toList_push]
  simp

theorem toList_hash (ps : List (Expr × Expr)) :
    (hash ps).render.toList = '\x7b' :: ((writePairs "" true ps).toList ++ ['\x7d']) := by
  show ((hash ps).write "").toList = _
  rw [write, String.toList_push, toList_writePairs, String.toList_push]
  simp

end Expr

theorem toList_writeItems_cons (first : Bool) (e : Expr) (items : List Expr) :
    (writeItems "" first (e :: items)).toList =
      (if first then [] else [',', ' ']) ++
        (e.render.toList ++ (writeItems "" false items).toList) := by
  rw [writeItems, toList_writeItems, Expr.toList_write]
  cases first <;> simp

theorem toList_writePairs_cons (first : Bool) (k v : Expr) (pairs : List (Expr × Expr)) :
    (writePairs "" first ((k, v) :: pairs)).toList =
      (if first then [] else [',', ' ']) ++
        (k.render.toList ++ ':' :: (v.render.toList ++ (writePairs "" false pairs).toList)) := by
  rw [writePairs, toList_writePairs, writePair, Expr.toList_write, String.toList_push,
    Expr.toList_write]
  cases first <;> simp

/-- Items that are not the first ones have a comma and a blank in front. -/
theorem toList_writeItems_next (e : Expr) (items : List Expr) :
    (writeItems "" false (e :: items)).toList =
      ',' :: ' ' :: (writeItems "" true (e :: items)).toList := by
  rw [toList_writeItems_cons, toList_writeItems_cons]
  rfl

theorem toList_writePairs_next (p : Expr × Expr) (pairs : List (Expr × Expr)) :
    (writePairs "" false (p :: pairs)).toList =
      ',' :: ' ' :: (writePairs "" true (p :: pairs)).toList := by
  obtain ⟨k, v⟩ := p
  rw [toList_writePairs_cons, toList_writePairs_cons]
  rfl

theorem Program.toList_bind (x : String) (e : Expr) (program : Program) :
    (Program.render (.bind x e :: program)).toList =
      "let ".toList ++ (x.toList ++ (" = ".toList ++
        (e.render.toList ++ ';' :: program.render.toList))) := by
  show (writeBlock (Stmt.write "" (.bind x e)) program).toList = _
  rw [toList_writeBlock, Stmt.write, String.toList_push, Expr.toList_write]
  simp [Program.render]

theorem Program.toList_ret (e : Expr) (program : Program) :
    (Program.render (.ret e :: program)).toList =
      "return ".toList ++ (e.render.toList ++ ';' :: program.render.toList) := by
  show (writeBlock (Stmt.write "" (.ret e)) program).toList = _
  rw [toList_writeBlock, Stmt.write, String.toList_push, Expr.toList_write]
  simp [Program.render]

/-! ## Tokens that stand close together -/

/-- No token goes on with the text. -/
def Delimited (cs : List Char) : Prop :=
  ∀ token : Token, token.Ends cs

/-- The characters that no token goes on with. -/
def delimiters : List Char :=
  [' ', '(', ')', '[', ']', '\x7d', ',', ':', ';']

theorem apart_of_mem_delimiters {c : Char} (h : c ∈ delimiters) :
    c.isDigit = false ∧ Text.isWordChar c = false ∧ c ≠ '=' ∧ c ≠ '/' := by
  simp only [delimiters, List.mem_cons, List.not_mem_nil, or_false] at h
  rcases h with rfl | rfl | rfl | rfl | rfl | rfl | rfl | rfl | rfl <;> decide +kernel

theorem delimited_cons {c : Char} (h : c ∈ delimiters) (cs : List Char) : Delimited (c :: cs) := by
  obtain ⟨hdigit, hword, hassign, hslash⟩ := apart_of_mem_delimiters h
  rintro token _ _ ⟨⟩
  cases token with
  | int => exact hdigit
  | ident | letWord | fnWord | trueWord | falseWord | ifWord | elseWord | returnWord => exact hword
  | assign | bang => exact decide_eq_false hassign
  | slash => exact decide_eq_false hslash
  | _ => rfl

/-- A text is one lexeme after the other, with blanks between them where they are wanted. -/
inductive Spelled : List Token → List Char → Prop where
  | nil : Spelled [] []
  | blank {ts cs} (h : Spelled ts cs) : Spelled ts (' ' :: cs)
  | token {t ts lexeme cs} (ht : Token.Lexeme t lexeme) (hends : t.Ends cs) (h : Spelled ts cs) :
      Spelled (t :: ts) (lexeme ++ cs)

/-- The tokens that are one character long and never longer. -/
def Token.marks : List (Token × Char) :=
  [(.leftParen, '('), (.rightParen, ')'), (.leftBracket, '['), (.rightBracket, ']'),
    (.leftBrace, '\x7b'), (.rightBrace, '\x7d'), (.comma, ','), (.colon, ':'), (.semicolon, ';')]

theorem Token.lexeme_text {t : Token} (h : t.Writable) (hstr : ∀ text, t ≠ .str text) :
    t.Lexeme t.text.toList := by
  have hwrites : t.Writes t.text.toList := by
    cases t with
    | int value => exact ⟨0, rfl⟩
    | str text => exact absurd rfl (hstr text)
    | _ => rfl
  exact (hwrites.scans h).lexeme

section

variable {t : Token} {ts : List Token} {c : Char} {cs : List Char}

theorem Spelled.mark (h : Spelled ts cs) (hmark : (t, c) ∈ Token.marks) :
    Spelled (t :: ts) (c :: cs) := by
  have ht : t.Lexeme [c] ∧ t.Ends cs := by
    simp only [Token.marks, List.mem_cons, Prod.mk.injEq, List.not_mem_nil, or_false] at hmark
    rcases hmark with ⟨rfl, rfl⟩ | ⟨rfl, rfl⟩ | ⟨rfl, rfl⟩ | ⟨rfl, rfl⟩ | ⟨rfl, rfl⟩ | ⟨rfl, rfl⟩ |
      ⟨rfl, rfl⟩ | ⟨rfl, rfl⟩ | ⟨rfl, rfl⟩
    all_goals exact ⟨Token.lexeme_text trivial nofun, fun _ _ _ => rfl⟩
  exact .token ht.1 ht.2 h

/-- A token that is no string, in front of something that it does not go on with. -/
theorem Spelled.word (h : Spelled ts cs) (ht : t.Writable) (hstr : ∀ text, t ≠ .str text)
    (hcs : t.Ends cs) : Spelled (t :: ts) (t.text.toList ++ cs) :=
  .token (Token.lexeme_text ht hstr) hcs h

theorem tokenizeFrom_skip {p q : Position} {source rest : List Char} {done : List Located}
    (h : skipTrivia false p source = skipTrivia false q rest) :
    tokenizeFrom p source done = tokenizeFrom q rest done := by
  obtain ⟨⟨start, tail⟩, hskip⟩ : ∃ found, skipTrivia false q rest = found := ⟨_, rfl⟩
  rw [hskip] at h
  cases tail with
  | nil => rw [tokenizeFrom_finish h, tokenizeFrom_finish hskip]
  | cons c cs =>
      cases hscan : Token.scan c cs with
      | error cause => rw [tokenizeFrom_fault h hscan, tokenizeFrom_fault hskip hscan]
      | ok found => rw [tokenizeFrom_token h hscan, tokenizeFrom_token hskip hscan]

theorem tokenizeFrom_spelled (h : Spelled ts cs) (p : Position) (done : List Located) :
    ∃ located, tokenizeFrom p cs done = .ok (done.reverse ++ located) ∧
      located.map Located.token = ts ++ [.finish] := by
  induction h generalizing p done with
  | nil =>
      refine ⟨[⟨.finish, p⟩], ?_, rfl⟩
      rw [tokenizeFrom_finish rfl, List.reverse_cons]
  | @blank ts cs _ ih =>
      obtain ⟨located, hlocated, hmap⟩ := ih (p.past [' ']) done
      have hskip : skipTrivia false p ([' '] ++ cs) = skipTrivia false (p.past [' ']) cs :=
        (Trivia.blank (by decide) .nil).skip
      exact ⟨located, (tokenizeFrom_skip hskip).trans hlocated, hmap⟩
  | @token t ts lexeme cs ht hends _ ih =>
      obtain ⟨first, more, rfl, hlexeme⟩ := ht
      obtain ⟨hskip, hscan⟩ := hlexeme cs hends
      obtain ⟨located, hlocated, hmap⟩ := ih (p.past (first :: more)) (⟨t, p⟩ :: done)
      refine ⟨⟨t, p⟩ :: located, ?_, by rw [List.map_cons, hmap]; rfl⟩
      have hskip : skipTrivia false p (first :: more ++ cs) = (p, first :: (more ++ cs)) := hskip p
      rw [tokenizeFrom_token hskip hscan, List.take_left, List.drop_left]
      rw [List.reverse_cons, List.append_assoc] at hlocated
      exact hlocated

theorem Token.operator?_equals (cs : List Char) :
    operator? '=' cs = some (.equal, 1) ∨ operator? '=' cs = some (.assign, 0) := by
  cases cs with
  | nil => exact .inr rfl
  | cons c cs =>
      by_cases hc : c = '='
      · subst hc
        exact .inl rfl
      · exact .inr (operator?_of_ne hc).1

/-- A word that an expression can start with does not start like the second half of an operator. -/
theorem Token.Lexeme.first_ne {more : List Char} (h : t.Lexeme (c :: more)) (ht : t.opens) :
    c ≠ '=' := by
  rintro rfl
  obtain ⟨_, _, ⟨⟩, hlexeme⟩ := h
  have hscan := (hlexeme [] t.ends_nil).2
  rw [Token.scan, if_neg (by decide), if_neg (by decide), if_neg (by decide)] at hscan
  rcases Token.operator?_equals (more ++ []) with hop | hop
  all_goals
    rw [hop] at hscan
    obtain ⟨rfl, -⟩ := Prod.mk.inj (Except.ok.inj hscan)
    cases ht

theorem Spelled.ends_bang (h : Spelled (t :: ts) cs) (ht : t.opens) : Token.bang.Ends cs := by
  cases h with
  | blank h =>
      rintro _ _ ⟨⟩
      rfl
  | token hlexeme hends h =>
      obtain ⟨first, more, rfl, -⟩ := id hlexeme
      rintro _ _ ⟨⟩
      exact decide_eq_false (hlexeme.first_ne ht)

end

/-- A text spells some tokens in front of whatever no token goes on with. -/
def Spells (ts : List Token) (text : List Char) : Prop :=
  ∀ us cs, Spelled us cs → Delimited cs → Spelled (ts ++ us) (text ++ cs)

namespace Spells

variable {ts us : List Token} {a b : List Char} {t u : Token} {c d : Char}

theorem nil : Spells [] [] :=
  fun _ _ h _ => h

theorem enclosed (h : Spells ts a) (hopen : (t, c) ∈ Token.marks) (hclose : (u, d) ∈ Token.marks)
    (hd : d ∈ delimiters) : Spells (t :: (ts ++ [u])) (c :: (a ++ [d])) := by
  intro vs cs hvs _
  have hinner := h _ _ (hvs.mark hclose) (delimited_cons hd cs)
  simpa using hinner.mark hopen

/-- Something in brackets right behind what it belongs to. -/
theorem applied (h : Spells ts a) (h' : Spells us b) (hopen : (t, c) ∈ Token.marks)
    (hclose : (u, d) ∈ Token.marks) (hc : c ∈ delimiters) (hd : d ∈ delimiters) :
    Spells (ts ++ t :: (us ++ [u])) (a ++ c :: (b ++ [d])) := by
  intro vs cs hvs hcs
  have happlied := h _ _ (h'.enclosed hopen hclose hd vs cs hvs hcs) (delimited_cons hc _)
  simpa using happlied

theorem colon (h : Spells ts a) (h' : Spells us b) :
    Spells (ts ++ .colon :: us) (a ++ ':' :: b) := by
  intro vs cs hvs hcs
  have hcolon : Spelled (.colon :: (us ++ vs)) (':' :: (b ++ cs)) :=
    (h' vs cs hvs hcs).mark (by decide)
  simpa using h _ _ hcolon (delimited_cons (by decide) _)

theorem comma (h : Spells ts a) (h' : Spells us b) :
    Spells (ts ++ .comma :: us) (a ++ ',' :: ' ' :: b) := by
  intro vs cs hvs hcs
  have hcomma : Spelled (.comma :: (us ++ vs)) (',' :: ' ' :: (b ++ cs)) :=
    (h' vs cs hvs hcs).blank.mark (by decide)
  simpa using h _ _ hcomma (delimited_cons (by decide) _)

end Spells

/-! ## Expressions that read back -/

/-- An expression without strings, conditionals and function literals, over the names, numbers and
operators of the language. -/
inductive Expr.Plain : Expr → Prop where
  | ident {name : String} (h : (Token.ident name).Writable) : Plain (.ident name)
  | int {value : Int64} (h : 0 ≤ value) : Plain (.int value)
  | bool (value : Bool) : Plain (.bool value)
  | prefixOp {op : String} {e : Expr} (hop : op ∈ ["-", "!"]) (he : Plain e) :
      Plain (.prefixOp op e)
  | infixOp {op : String} {l r : Expr}
      (hop : op ∈ ["+", "-", "*", "/", "<", ">", "==", "!="]) (hl : Plain l) (hr : Plain r) :
      Plain (.infixOp op l r)
  | call {f : Expr} {args : List Expr} (hf : Plain f) (hargs : ∀ e ∈ args, Plain e) :
      Plain (.call f args)
  | index {c i : Expr} (hc : Plain c) (hi : Plain i) : Plain (.index c i)
  | array {es : List Expr} (h : ∀ e ∈ es, Plain e) : Plain (.array es)
  | hash {ps : List (Expr × Expr)} (hkeys : ∀ p ∈ ps, Plain p.1) (hvalues : ∀ p ∈ ps, Plain p.2) :
      Plain (.hash ps)

/-- A program of plain `let` and `return` statements, and perhaps a plain expression at the end. -/
inductive Program.Plain : Program → Prop where
  | nil : Plain []
  | value {e : Expr} (he : e.Plain) : Plain [.expr e]
  | bind {x : String} {e : Expr} {program : Program} (hx : (Token.ident x).Writable) (he : e.Plain)
      (h : Plain program) : Plain (.bind x e :: program)
  | ret {e : Expr} {program : Program} (he : e.Plain) (h : Plain program) :
      Plain (.ret e :: program)

namespace Parser

/-- The words `ts` are the canonical text of an expression, and in front of `rest` they are read as
the expression, after which the loop over operators goes on with `rest`. -/
structure Legible (e : Expr) (ts : List Token) : Prop where
  spells : Spells ts e.render.toList
  reads : ∀ {least rest e' rest'}, least.rank < Precedence.call.rank →
    Reads (.operators least e) rest (.expr e') rest' →
    Reads (.expression least) (ts ++ rest) (.expr e') rest'

section

variable {e l r c i f : Expr} {ts us : List Token} {op : String}

theorem Legible.before (h : Legible e ts) {least : Precedence}
    (hleast : least.rank < Precedence.call.rank) (t : Token) (rest : List Token)
    (ht : (Precedence.ofToken t).rank = 0) :
    Reads (.expression least) (ts ++ t :: rest) (.expr e) (t :: rest) := by
  refine h.reads hleast (.done ?_)
  rw [Token.next_cons, ht]
  exact Nat.zero_le _

theorem Legible.whole (h : Legible e ts) : Reads (.expression .lowest) ts (.expr e) [] := by
  have hreads : Reads (.expression .lowest) (ts ++ []) (.expr e) [] :=
    h.reads (by decide) (.done (by decide))
  rwa [List.append_nil] at hreads

theorem Legible.opens (h : Legible e ts) : ∃ t us, ts = t :: us ∧ t.opens := by
  have hopens : (Token.next ts).opens := h.whole.begins
  cases ts with
  | nil => cases hopens
  | cons t us => exact ⟨t, us, rfl, hopens⟩

theorem legible_of_word {t : Token} (ht : t.Writable) (hstr : ∀ text, t ≠ .str text)
    (htext : e.render = t.text) (h : ∀ rest, Reads .operand (t :: rest) (.expr e) rest) :
    Legible e [t] where
  spells us cs hus hcs := by
    rw [htext]
    exact hus.word ht hstr (hcs t)
  reads _ hrest := .expression (h _) hrest

/-- An expression whose canonical text is in parentheses. -/
theorem legible_of_group {text : List Char} (htext : e.render.toList = '(' :: (text ++ [')']))
    (hspells : Spells ts text)
    (hreads : ∀ rest, Reads (.expression .lowest) (ts ++ .rightParen :: rest) (.expr e)
      (.rightParen :: rest)) :
    ∃ ts', Legible e ts' := by
  refine ⟨.leftParen :: (ts ++ [.rightParen]), ?_, fun _ hrest => ?_⟩
  · rw [htext]
    exact hspells.enclosed (by decide) (by decide) (by decide)
  · rw [List.cons_append, List.append_assoc, List.singleton_append]
    exact .expression (.group (hreads _)) hrest

theorem legible_prefixOp (h : Legible e ts) (hop : op ∈ Token.unary.map Token.text) :
    ∃ ts', Legible (.prefixOp op e) ts' := by
  obtain ⟨t, ht, rfl⟩ := List.mem_map.1 hop
  have hspells : Spells (t :: ts) (t.text.toList ++ e.render.toList) := by
    intro us cs hus hcs
    have he := h.spells us cs hus hcs
    obtain ⟨first, more, rfl, hopens⟩ := h.opens
    rw [List.append_assoc]
    rcases List.mem_pair.1 ht with rfl | rfl
    · -- the operand starts with no equals sign
      exact he.word trivial nofun (he.ends_bang hopens)
    · exact he.word trivial nofun fun _ _ _ => rfl
  refine legible_of_group ?_ hspells fun rest => ?_
  · rw [Expr.toList_prefixOp, List.append_assoc]
  · exact .expression (.prefixOp ht (h.before (by decide) _ _ rfl)) (.done (Nat.zero_le _))

theorem writable_binary {t : Token} (h : t ∈ Token.binary) :
    t.Writable ∧ ∀ text, t ≠ .str text := by
  simp only [Token.binary, List.mem_cons, List.not_mem_nil, or_false] at h
  rcases h with rfl | rfl | rfl | rfl | rfl | rfl | rfl | rfl
  all_goals exact ⟨trivial, nofun⟩

theorem legible_infixOp (hl : Legible l ts) (hr : Legible r us)
    (hop : op ∈ Token.binary.map Token.text) : ∃ ts', Legible (.infixOp op l r) ts' := by
  obtain ⟨t, ht, rfl⟩ := List.mem_map.1 hop
  obtain ⟨hwritable, hstr⟩ := writable_binary ht
  obtain ⟨hpos, hbelow⟩ := Token.rank_binary ht
  have hspells : Spells (ts ++ t :: us)
      (l.render.toList ++ ' ' :: (t.text.toList ++ ' ' :: r.render.toList)) := by
    intro vs cs hvs hcs
    have hright := (hr.spells vs cs hvs hcs).blank
    have hword := (hright.word hwritable hstr (delimited_cons (by decide) _ t)).blank
    have hleft := hl.spells _ _ hword (delimited_cons (by decide) _)
    simpa only [List.append_assoc, List.cons_append] using hleft
  refine legible_of_group ?_ hspells fun rest => ?_
  · rw [Expr.toList_infixOp]
    simp
  · rw [List.append_assoc, List.cons_append]
    exact hl.reads (by decide) (.infixOp ht hpos
      (hr.before (hbelow.trans (by decide)) _ _ rfl) (.done (Nat.zero_le _)))

theorem legible_index (hc : Legible c ts) (hi : Legible i us) :
    ∃ ts', Legible (.index c i) ts' := by
  have hspells : Spells (ts ++ .leftBracket :: (us ++ [.rightBracket]))
      (c.render.toList ++ '[' :: (i.render.toList ++ [']'])) :=
    hc.spells.applied hi.spells (by decide) (by decide) (by decide) (by decide)
  refine legible_of_group ?_ hspells fun rest => ?_
  · rw [Expr.toList_index]
    simp
  · simp only [List.append_assoc, List.cons_append, List.nil_append]
    exact hc.reads (by decide) (.index (by decide) (hi.before (by decide) _ _ rfl)
      (.done (Nat.zero_le _)))

/-! ### Lists -/

/-- At least one item. A comma and a blank are written between two of them. -/
theorem exists_moreItems {close : Token} (hclose : close = .rightParen ∨ close = .rightBracket)
    {es : List Expr} (h : ∀ e' ∈ e :: es, ∃ ts, Legible e' ts) :
    ∃ ts, Spells ts (writeItems "" true (e :: es)).toList ∧
      ∀ rest, Reads (.moreItems close) (ts ++ close :: rest) (.exprs (e :: es)) rest := by
  have hends : (Precedence.ofToken close).rank = 0 ∧ close ≠ .comma := by
    rcases hclose with rfl | rfl <;> exact ⟨rfl, nofun⟩
  induction es generalizing e with
  | nil =>
      obtain ⟨ts, he⟩ := h e List.mem_cons_self
      refine ⟨ts, ?_, fun rest => .lastItem hends.2 (he.before (by decide) _ _ hends.1)⟩
      rw [toList_writeItems_cons]
      simpa [writeItems] using he.spells
  | cons e₂ es ih =>
      obtain ⟨⟨ts, he⟩, h⟩ := List.forall_mem_cons.1 h
      obtain ⟨ts', hspells, hreads⟩ := ih h
      refine ⟨ts ++ .comma :: ts', ?_, fun rest => ?_⟩
      · rw [toList_writeItems_cons, toList_writeItems_next]
        exact he.spells.comma hspells
      · rw [List.append_assoc, List.cons_append]
        exact .nextItem (he.before (by decide) _ _ rfl) (hreads rest)

theorem exists_items {close : Token} (hclose : close = .rightParen ∨ close = .rightBracket)
    {es : List Expr} (h : ∀ e ∈ es, ∃ ts, Legible e ts) :
    ∃ ts, Spells ts (writeItems "" true es).toList ∧
      ∀ rest, Reads (.items close) (ts ++ close :: rest) (.exprs es) rest := by
  cases es with
  | nil => exact ⟨[], .nil, fun rest => .noItems⟩
  | cons e es =>
      obtain ⟨ts, hspells, hreads⟩ := exists_moreItems hclose h
      refine ⟨ts, hspells, fun rest => .someItems (fun heq => ?_) (hreads rest)⟩
      have hopens : Token.opens (Token.next _) = true := (hreads rest).begins
      rw [heq] at hopens
      rcases hclose with rfl | rfl <;> cases hopens

theorem exists_pairs {ps : List (Expr × Expr)}
    (h : ∀ p ∈ ps, (∃ ts, Legible p.1 ts) ∧ ∃ ts, Legible p.2 ts) :
    ∃ ts, Spells ts (writePairs "" true ps).toList ∧
      ∀ rest, Reads .pairs (ts ++ .rightBrace :: rest) (.entries ps) rest := by
  induction ps with
  | nil => exact ⟨[], .nil, fun rest => .noPairs⟩
  | cons p ps ih =>
      obtain ⟨k, v⟩ := p
      obtain ⟨⟨⟨ks, hk⟩, ⟨vs, hv⟩⟩, h⟩ := List.forall_mem_cons.1 h
      obtain ⟨ts', hspells, hreads⟩ := ih h
      cases ps with
      | nil =>
          refine ⟨ks ++ .colon :: vs, ?_, fun rest => ?_⟩
          · rw [toList_writePairs_cons]
            simpa [writePairs] using hk.spells.colon hv.spells
          · rw [List.append_assoc, List.cons_append]
            exact .lastPair (hk.before (by decide) _ _ rfl) (hv.before (by decide) _ _ rfl)
      | cons p₂ ps =>
          refine ⟨ks ++ .colon :: (vs ++ .comma :: ts'), ?_, fun rest => ?_⟩
          · rw [toList_writePairs_cons, toList_writePairs_next]
            exact hk.spells.colon (hv.spells.comma hspells)
          · simp only [List.append_assoc, List.cons_append]
            exact .nextPair (hk.before (by decide) _ _ rfl) (hv.before (by decide) _ _ rfl)
              (hreads rest)

theorem legible_call {args : List Expr} (hf : Legible f ts)
    (hargs : ∀ e ∈ args, ∃ ts, Legible e ts) : ∃ ts', Legible (.call f args) ts' := by
  obtain ⟨us, hspells, hreads⟩ := exists_items (.inl rfl) hargs
  refine ⟨ts ++ .leftParen :: (us ++ [.rightParen]), ?_, fun hleast hrest => ?_⟩
  · rw [Expr.toList_call]
    exact hf.spells.applied hspells (by decide) (by decide) (by decide) (by decide)
  · simp only [List.append_assoc, List.cons_append, List.nil_append]
    exact hf.reads hleast (.call hleast (hreads _) hrest)

theorem legible_array {es : List Expr} (hes : ∀ e ∈ es, ∃ ts, Legible e ts) :
    ∃ ts', Legible (.array es) ts' := by
  obtain ⟨us, hspells, hreads⟩ := exists_items (.inr rfl) hes
  refine ⟨.leftBracket :: (us ++ [.rightBracket]), ?_, fun _ hrest => ?_⟩
  · rw [Expr.toList_array]
    exact hspells.enclosed (by decide) (by decide) (by decide)
  · rw [List.cons_append, List.append_assoc]
    exact .expression (.array (hreads _)) hrest

theorem legible_hash {ps : List (Expr × Expr)}
    (hps : ∀ p ∈ ps, (∃ ts, Legible p.1 ts) ∧ ∃ ts, Legible p.2 ts) :
    ∃ ts', Legible (.hash ps) ts' := by
  obtain ⟨us, hspells, hreads⟩ := exists_pairs hps
  refine ⟨.leftBrace :: (us ++ [.rightBrace]), ?_, fun _ hrest => ?_⟩
  · rw [Expr.toList_hash]
    exact hspells.enclosed (by decide) (by decide) (by decide)
  · rw [List.cons_append, List.append_assoc]
    exact .expression (.hash (hreads _)) hrest

/-! ### All expressions, and programs -/

theorem exists_legible (h : e.Plain) : ∃ ts, Legible e ts := by
  induction h with
  | ident hname => exact ⟨_, legible_of_word hname nofun rfl fun _ => .ident⟩
  | @int value hvalue =>
      exact ⟨_, legible_of_word (t := .int value) hvalue nofun rfl fun _ => .int⟩
  | bool value =>
      cases value
      · exact ⟨_, legible_of_word (t := .falseWord) trivial nofun rfl fun _ => .no⟩
      · exact ⟨_, legible_of_word (t := .trueWord) trivial nofun rfl fun _ => .yes⟩
  | prefixOp hop _ ih =>
      obtain ⟨ts, he⟩ := ih
      refine legible_prefixOp he ?_
      rcases List.mem_pair.1 hop with rfl | rfl <;> decide
  | infixOp hop _ _ ihl ihr =>
      obtain ⟨ts, hl⟩ := ihl
      obtain ⟨us, hr⟩ := ihr
      exact legible_infixOp hl hr hop
  | call _ _ ihf ihargs =>
      obtain ⟨ts, hf⟩ := ihf
      exact legible_call hf ihargs
  | index _ _ ihc ihi =>
      obtain ⟨ts, hc⟩ := ihc
      obtain ⟨us, hi⟩ := ihi
      exact legible_index hc hi
  | array _ ih => exact legible_array ih
  | hash _ _ ihk ihv => exact legible_hash fun p hp => ⟨ihk p hp, ihv p hp⟩

/-- Only a function literal takes the name that it is bound to. -/
theorem named_of_plain (h : e.Plain) (x : String) : e.named x = e := by
  cases h <;> rfl

theorem exists_readsProgram {program : Program} (h : program.Plain) :
    ∃ ts, Spelled ts program.render.toList ∧ ReadsProgram ts program := by
  induction h with
  | nil => exact ⟨[], .nil, .done⟩
  | @value e he =>
      obtain ⟨ts, he⟩ := exists_legible he
      refine ⟨ts, ?_, .next (.value he.whole) .done⟩
      have hspelled := he.spells _ _ .nil fun t => t.ends_nil
      rwa [List.append_nil, List.append_nil] at hspelled
  | @bind x e program hx he _ ih =>
      obtain ⟨ts, he'⟩ := exists_legible he
      obtain ⟨us, hspelled, hreads⟩ := ih
      refine ⟨.letWord :: .ident x :: .assign :: (ts ++ .semicolon :: us), ?_, ?_⟩
      · have hsemicolon : Spelled (.semicolon :: us) (';' :: _) := hspelled.mark (by decide)
        have hvalue := (he'.spells _ _ hsemicolon (delimited_cons (by decide) _)).blank
        have hassign := (hvalue.word (t := .assign) trivial nofun
          (delimited_cons (by decide) _ _)).blank
        have hname := (hassign.word hx nofun (delimited_cons (by decide) _ _)).blank
        have hlet := hname.word (t := .letWord) trivial nofun (delimited_cons (by decide) _ _)
        rw [Program.toList_bind]
        exact hlet
      · have hvalue : Reads (.expression .lowest) _ _ _ := he'.before (by decide) .semicolon us rfl
        have hbind := Reads.bind (x := x) hvalue
        rw [named_of_plain he] at hbind
        exact .next hbind hreads
  | @ret e program he _ ih =>
      obtain ⟨ts, he⟩ := exists_legible he
      obtain ⟨us, hspelled, hreads⟩ := ih
      refine ⟨.returnWord :: (ts ++ .semicolon :: us), ?_, ?_⟩
      · have hsemicolon : Spelled (.semicolon :: us) (';' :: _) := hspelled.mark (by decide)
        have hvalue := (he.spells _ _ hsemicolon (delimited_cons (by decide) _)).blank
        have hreturn := hvalue.word (t := .returnWord) trivial nofun
          (delimited_cons (by decide) _ _)
        rw [Program.toList_ret]
        exact hreturn
      · exact .next (.ret (he.before (by decide) .semicolon us rfl)) hreads

end

end Parser

theorem Program.parse_spelled {ts : List Token} {source : String} {program : Program}
    (hspelled : Spelled ts source.toList) (hreads : Parser.ReadsProgram ts program) :
    Program.parse source = .ok program := by
  obtain ⟨located, hlocated, hmap⟩ := tokenizeFrom_spelled hspelled {} []
  have htokenize : tokenize source = .ok located := hlocated
  obtain ⟨taken, htaken, hfinish⟩ := hreads.consumes
  rw [List.append_nil] at htaken
  have hwords : (Parser.words located).takeWhile (· ≠ .finish) = ts := by
    rw [Parser.words, hmap, htaken, List.takeWhile_append_of_pos]
    · exact List.append_nil _
    · exact fun t ht => decide_eq_true fun heq => hfinish (heq ▸ ht)
  have hprogram : Program.ofTokens located = .ok program :=
    Parser.ofTokens_eq_ok.2 (hwords.symm ▸ hreads)
  simp only [Program.parse, htokenize, hprogram]

/-- The canonical text of a plain expression is read as that expression, and the canonical text of a
plain program as that program. -/
theorem Program.parse_render :
    (∀ e : Expr, e.Plain → Program.parse e.render = .ok [.expr e]) ∧
      ∀ program : Program, program.Plain → Program.parse program.render = .ok program := by
  have hparse : ∀ program : Program, program.Plain →
      Program.parse program.render = .ok program := by
    intro program h
    obtain ⟨ts, hspelled, hreads⟩ := Parser.exists_readsProgram h
    exact Program.parse_spelled hspelled hreads
  -- an expression is written as the program of that one statement is
  exact ⟨fun e he => hparse [.expr e] (.value he), hparse⟩

/-- Signs in front of signs, a division that is no comment, calls of what is not a name, and
collections inside collections. -/
def Program.plainSample : Program :=
  [.bind "xs" (.array [.prefixOp "-" (.prefixOp "!" (.ident "a")),
      .hash [(.bool true, .call (.ident "f") [.int 2, .index (.ident "xs") (.int 0)])]]),
    .ret (.infixOp "/" (.infixOp "!=" (.ident "a") (.int 1)) (.prefixOp "-" (.int 3))),
    .expr (.call (.index (.ident "xs") (.int 0)) [])]

theorem Program.parse_render_plainSample :
    plainSample.render =
      "let xs = [(-(!a)), \x7btrue:f(2, (xs[0]))\x7d];return ((a != 1) / (-3));(xs[0])()" ∧
    plainSample.Plain ∧ Program.parse plainSample.render = .ok plainSample := by
  have hplain : plainSample.Plain := by
    have hxs : (Token.ident "xs").Writable :=
      show Text.IsWord "xs".toList ∧ Token.keyword? "xs" = none by decide
    have ha : (Token.ident "a").Writable :=
      show Text.IsWord "a".toList ∧ Token.keyword? "a" = none by decide
    have hf : (Token.ident "f").Writable :=
      show Text.IsWord "f".toList ∧ Token.keyword? "f" = none by decide
    have hfirst : (Expr.index (.ident "xs") (.int 0)).Plain :=
      .index (.ident hxs) (.int (by decide))
    have hcall : (Expr.call (.ident "f") [.int 2, .index (.ident "xs") (.int 0)]).Plain :=
      .call (.ident hf)
        (List.forall_mem_cons.2 ⟨.int (by decide), List.forall_mem_singleton.2 hfirst⟩)
    refine .bind hxs (.array (List.forall_mem_cons.2 ⟨?_, List.forall_mem_singleton.2 ?_⟩))
      (.ret ?_ (.value ?_))
    · exact .prefixOp (by decide) (.prefixOp (by decide) (.ident ha))
    · exact .hash (List.forall_mem_singleton.2 (.bool true)) (List.forall_mem_singleton.2 hcall)
    · exact .infixOp (by decide) (.infixOp (by decide) (.ident ha) (.int (by decide)))
        (.prefixOp (by decide) (.int (by decide)))
    · exact .call hfirst nofun
  exact ⟨by decide +kernel, hplain, Program.parse_render.2 plainSample hplain⟩

end Monkey
