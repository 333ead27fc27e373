/-
  Tokens of the textual program form, and how a text is cut into them.

  `lexeme?` takes the longest lexeme off the front of a text: a run of blanks,
  a comment, a word, a label or a punctuation mark. `scan` repeats it and
  keeps what is not skipped. Every word is a name unless it spells a keyword;
  keywords are reserved everywhere, and a label may spell one. Scanning stops
  at the first character that starts no lexeme; what was read up to there
  still counts.
-/
import Sendability.Text.Basic

namespace Sendability.Source

/-- A place in a text: the number of characters before it, the line and the
    column. Only a line feed starts a new line. -/
structure Position where
  offset : Nat := 0
  line : Nat := 1
  column : Nat := 1
  deriving DecidableEq, Inhabited

namespace Position

/-- The place after one character. -/
def advance (p : Position) (c : CodePoint) : Position :=
  if c = '\n'.toNat then ⟨p.offset + 1, p.line + 1, 1⟩ else ⟨p.offset + 1, p.line, p.column + 1⟩

/-- The place after a list of characters. -/
def advanceAll (p : Position) (cs : List CodePoint) : Position := cs.foldl advance p

end Position

/-- The reserved words. -/
inductive Keyword where
  | type | func | inDomain | init | load | copy | closure | call | onDomain | spawn | store | use
  | write | goto | br | ret | throw | toHandler | unreachable | sendable
  deriving DecidableEq, Inhabited

namespace Keyword

/-- The spelling of a keyword. -/
def spelling : Keyword → String
  | .type => "type"
  | .func => "func"
  | .inDomain => "in"
  | .init => "init"
  | .load => "load"
  | .copy => "copy"
  | .closure => "closure"
  | .call => "call"
  | .onDomain => "on"
  | .spawn => "spawn"
  | .store => "store"
  | .use => "use"
  | .write => "write"
  | .goto => "goto"
  | .br => "br"
  | .ret => "return"
  | .throw => "throw"
  | .toHandler => "to"
  | .unreachable => "unreachable"
  | .sendable => "sendable"

/-- Every keyword. -/
def all : List Keyword :=
  [.type, .func, .inDomain, .init, .load, .copy, .closure, .call, .onDomain, .spawn, .store, .use,
    .write, .goto, .br, .ret, .throw, .toHandler, .unreachable, .sendable]

/-- The keyword that a word spells, if any. -/
def ofWord? (w : Text) : Option Keyword := all.find? fun k => k.spelling = w

end Keyword

/-- The punctuation marks. -/
inductive Mark where
  | colon | comma | dot | equal | lbrace | rbrace | lpar | rpar | lsqb | rsqb | qmark
  deriving DecidableEq, Inhabited

namespace Mark

/-- The character of a mark. -/
def char : Mark → Char
  | .colon => ':'
  | .comma => ','
  | .dot => '.'
  | .equal => '='
  | .lbrace => '{'
  | .rbrace => '}'
  | .lpar => '('
  | .rpar => ')'
  | .lsqb => '['
  | .rsqb => ']'
  | .qmark => '?'

/-- Every mark. -/
def all : List Mark :=
  [.colon, .comma, .dot, .equal, .lbrace, .rbrace, .lpar, .rpar, .lsqb, .rsqb, .qmark]

/-- The mark that a code point is, if any. -/
def ofPoint? (c : CodePoint) : Option Mark := all.find? fun m => m.char.toNat = c

/-- The name of a mark in messages. -/
def title : Mark → String
  | .colon => "COLON"
  | .comma => "COMMA"
  | .dot => "DOT"
  | .equal => "EQUAL"
  | .lbrace => "LBRACE"
  | .rbrace => "RBRACE"
  | .lpar => "LPAR"
  | .rpar => "RPAR"
  | .lsqb => "LSQB"
  | .rsqb => "RSQB"
  | .qmark => "QMARK"

end Mark

/-- What a token is. -/
inductive Kind where
  | name
  | label
  | keyword (k : Keyword)
  | mark (m : Mark)
  deriving DecidableEq, Inhabited

/-- The name of a kind of token in messages: a keyword is its own name in
    capitals. -/
def Kind.title : Kind → String
  | .name => "NAME"
  | .label => "LABEL"
  | .keyword k => k.spelling.toUpper
  | .mark m => m.title

/-- A token with its text and the places of its first character and of the
    one after its last. -/
structure Token where
  kind : Kind
  text : Text
  start : Position
  stop : Position
  deriving DecidableEq, Inhabited

/-- A token as messages show it. -/
def Token.show (t : Token) : Text := "Token('" ++ t.kind.title ++ "', '" ++ t.text ++ "')"

/-! ## Character classes -/

/-- Characters between tokens. -/
def isBlank (c : CodePoint) : Bool :=
  c = ' '.toNat || c = '\t'.toNat || c = '\n'.toNat || c = '\r'.toNat || c = '\x0c'.toNat

/-- The letters of ASCII. -/
def isLetter (c : CodePoint) : Bool :=
  ('a'.toNat ≤ c && c ≤ 'z'.toNat) || ('A'.toNat ≤ c && c ≤ 'Z'.toNat)

/-- The digits of ASCII. -/
def isDigit (c : CodePoint) : Bool := '0'.toNat ≤ c && c ≤ '9'.toNat

/-- Characters that start a word. -/
def isWordStart (c : CodePoint) : Bool := isLetter c || c = '_'.toNat

/-- Characters of a word. -/
def isWordPart (c : CodePoint) : Bool := isWordStart c || isDigit c

/-! ## Lexemes -/

/-- A lexeme at the front of a text: its kind, none if it is skipped, its
    characters, and the rest of the text. -/
structure Lexeme where
  kind : Option Kind
  text : List CodePoint
  rest : List CodePoint
  deriving DecidableEq, Inhabited

/-- The kind of a word. -/
def wordKind (w : List CodePoint) : Kind :=
  match Keyword.ofWord? ⟨w⟩ with
  | some k => .keyword k
  | none => .name

/-- The lexeme at the front of a text, if its first character starts one. -/
def lexeme? : List CodePoint → Option Lexeme
  | [] => none
  | c :: cs =>
    if isBlank c then some ⟨none, c :: cs.takeWhile isBlank, cs.dropWhile isBlank⟩
    else if c = '#'.toNat || (c = '/'.toNat && cs.head? = some '/'.toNat) then
      some ⟨none, c :: cs.takeWhile (· ≠ '\n'.toNat), cs.dropWhile (· ≠ '\n'.toNat)⟩
    else if isWordStart c then
      let w := c :: cs.takeWhile isWordPart
      some ⟨some (wordKind w), w, cs.dropWhile isWordPart⟩
    else if c = '@'.toNat && cs.head?.any isWordStart then
      some ⟨some .label, c :: cs.takeWhile isWordPart, cs.dropWhile isWordPart⟩
    else (Mark.ofPoint? c).map fun m => ⟨some (.mark m), [c], cs⟩

/-- A lexeme is a first character and the run of those that go on with it; nothing
    goes on with a mark. -/
theorem lexeme?_cases {cs : List CodePoint} {l : Lexeme} (h : lexeme? cs = some l) :
    ∃ c rest, ∃ goesOn : CodePoint → Bool, cs = c :: rest ∧
      l.text = c :: rest.takeWhile goesOn ∧ l.rest = rest.dropWhile goesOn := by
  cases cs with
  | nil => simp [lexeme?] at h
  | cons c cs =>
    simp only [lexeme?] at h
    split at h
    · cases h
      exact ⟨c, cs, _, rfl, rfl, rfl⟩
    · split at h
      · cases h
        exact ⟨c, cs, _, rfl, rfl, rfl⟩
      · split at h
        · cases h
          exact ⟨c, cs, _, rfl, rfl, rfl⟩
        · split at h
          · cases h
            exact ⟨c, cs, _, rfl, rfl, rfl⟩
          · obtain ⟨m, -, rfl⟩ := Option.map_eq_some_iff.1 h
            exact ⟨c, cs, fun _ => false, rfl, by cases cs <;> rfl, by cases cs <;> rfl⟩

/-- A lexeme and the rest after it make up the text. -/
theorem lexeme?_append {cs : List CodePoint} {l : Lexeme} (h : lexeme? cs = some l) :
    l.text ++ l.rest = cs := by
  obtain ⟨c, rest, goesOn, rfl, htext, hrest⟩ := lexeme?_cases h
  rw [htext, hrest, List.cons_append, List.takeWhile_append_dropWhile]

/-- A lexeme has at least one character. -/
theorem lexeme?_text_ne_nil {cs : List CodePoint} {l : Lexeme} (h : lexeme? cs = some l) :
    l.text ≠ [] := by
  obtain ⟨c, rest, goesOn, -, htext, -⟩ := lexeme?_cases h
  simp [htext]

/-- The rest after a lexeme is shorter than the text. -/
theorem lexeme?_rest_length {cs : List CodePoint} {l : Lexeme} (h : lexeme? cs = some l) :
    l.rest.length < cs.length := by
  have hlen := congrArg List.length (lexeme?_append h)
  have hpos := List.length_pos_iff.2 (lexeme?_text_ne_nil h)
  simp only [List.length_append] at hlen
  omega

/-! ## Scanning -/

/-- The tokens of a text up to its end, or up to a character that starts no
    lexeme. -/
structure Scan where
  tokens : List Token
  stuck : Option Position
  deriving DecidableEq, Inhabited

/-- Cuts the text that begins at `pos` into tokens. -/
def scanFrom (pos : Position) (cs : List CodePoint) : Scan :=
  match h : lexeme? cs with
  | none => ⟨[], if cs.isEmpty then none else some pos⟩
  | some l =>
    have : l.rest.length < cs.length := lexeme?_rest_length h
    let stop := pos.advanceAll l.text
    let more := scanFrom stop l.rest
    match l.kind with
    | none => more
    | some kind => { more with tokens := ⟨kind, ⟨l.text⟩, pos, stop⟩ :: more.tokens }
termination_by cs.length

/-- Cuts a text into tokens. -/
def scan (text : Text) : Scan := scanFrom {} text.points

end Sendability.Source
