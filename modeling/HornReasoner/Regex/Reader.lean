import HornReasoner.Regex.Pattern
import HornReasoner.Text.Digits
import HornReasoner.Text.Script

/-! Reading the notation of regular expressions.

The notation has literals, escapes, classes with set operations, groups, alternatives,
repetitions, assertions and flags; it has neither back references nor look-around. A
flag counts from where it stands to the end of its group. -/
namespace HornReasoner.Regex

structure Flags where
  caseInsensitive : Bool := false
  multiLine : Bool := false
  dotMatchesNewline : Bool := false
  swapGreed : Bool := false
  unicode : Bool := true
  crlf : Bool := false
  ignoreBlanks : Bool := false

/-- What is left to read, the flags in force and the group names met so far. -/
structure Cursor where
  rest : List Char
  flags : Flags := {}
  names : List String := []

/-- Without the blanks and the comments, which run to the end of their line. -/
def skipComments : Bool → List Char → List Char
  | _, [] => []
  | true, c :: rest => skipComments (c ≠ '\n') rest
  | false, c :: rest =>
    if Text.isWhiteSpace c then skipComments false rest
    else if c = '#' then skipComments true rest
    else c :: rest

/-- Blanks and comments count for nothing where the flag `x` is in force. -/
def Flags.skip (f : Flags) (s : List Char) : List Char :=
  if f.ignoreBlanks then skipComments false s else s

def Cursor.skip (k : Cursor) : Cursor := { k with rest := k.flags.skip k.rest }

/-! ### Single characters and classes -/

/-- Characters that a backslash makes literal: all of ASCII but letters, digits and
the two angle brackets. -/
def isEscapable (c : Char) : Bool :=
  c.toNat < 128 && !c.isAlphanum && c ≠ '<' && c ≠ '>'

def controlEscape? (c : Char) : Option Char :=
  [('a', '\x07'), ('f', '\x0c'), ('t', '\t'), ('n', '\n'), ('r', '\r'), ('v', '\x0b')].lookup c

/-- Exactly `n` characters with blanks between them skipped as the flags say. -/
def takeChars (f : Flags) : Nat → List Char → Option (List Char × List Char)
  | 0, s => some ([], s)
  | n + 1, s =>
    match f.skip s with
    | c :: rest => (takeChars f n rest).map fun e => (c :: e.1, e.2)
    | [] => none

/-- The characters up to the closing brace. -/
def untilBrace (f : Flags) (s : List Char) : Option (List Char × List Char) :=
  let inside := s.takeWhile (· ≠ '\x7d')
  match s.drop inside.length with
  | _ :: rest =>
    some (if f.ignoreBlanks then inside.filter (!Text.isWhiteSpace ·) else inside, rest)
  | [] => none

/-- Whether a class without Unicode meaning is one of ASCII alone; other bytes are no
characters. -/
def asciiOnly (set : CharClass) : Bool :=
  (List.range 128).all fun n => !set.has (Char.ofNat (128 + n))

def checked (f : Flags) (set : CharClass) : Option CharClass :=
  if f.unicode || asciiOnly set then some set else none

def foldWith (f : Flags) (set : CharClass) : CharClass :=
  if !f.caseInsensitive then set
  else if f.unicode then set.foldCase
  else ⟨fun c => set.has c || set.has c.toLower || set.has c.toUpper, 2 * set.weight⟩

def isAsciiWord (c : Char) : Bool := c.isAlphanum || c = '_'

def wordTest (f : Flags) : Char → Bool := if f.unicode then Text.isWord else isAsciiWord

/-- The classes of a single letter: digits, white space, word characters. -/
def letterClass? (f : Flags) (c : Char) : Option CharClass :=
  let base (kind : Char) : Option CharClass :=
    if kind = 'd' then some ⟨if f.unicode then Text.isDecimalDigit else Char.isDigit, 60⟩
    else if kind = 's' then
      some ⟨if f.unicode then Text.isWhiteSpace else fun c => c = ' ' || (9 ≤ c.toNat && c.toNat ≤ 13), 10⟩
    else if kind = 'w' then some ⟨wordTest f, if f.unicode then 1500 else 4⟩
    else none
  if c.isUpper then (base c.toLower).map CharClass.compl else base c

/-- The classes of names such as `alpha`, all within ASCII. -/
def asciiClass? (name : String) : Option CharClass :=
  let of (has : Char → Bool) : Option CharClass := some ⟨has, 4⟩
  if name = "alnum" then of Char.isAlphanum
  else if name = "alpha" then of Char.isAlpha
  else if name = "ascii" then of fun c => c.toNat < 128
  else if name = "blank" then of fun c => c = ' ' || c = '\t'
  else if name = "cntrl" then of fun c => c.toNat < 32 || c.toNat = 127
  else if name = "digit" then of Char.isDigit
  else if name = "graph" then of fun c => 33 ≤ c.toNat && c.toNat ≤ 126
  else if name = "lower" then of Char.isLower
  else if name = "print" then of fun c => 32 ≤ c.toNat && c.toNat ≤ 126
  else if name = "punct" then
    of fun c => 33 ≤ c.toNat && c.toNat ≤ 126 && !c.isAlphanum
  else if name = "space" then of fun c => c = ' ' || (9 ≤ c.toNat && c.toNat ≤ 13)
  else if name = "upper" then of Char.isUpper
  else if name = "word" then of isAsciiWord
  else if name = "xdigit" then of fun c => (Text.hexValue? c).isSome
  else none

/-- General categories under their names; the short ones match by their start. -/
def categoryNames : List (String × String) :=
  [("letter", "L"), ("uppercaseletter", "Lu"), ("lowercaseletter", "Ll"),
   ("titlecaseletter", "Lt"), ("modifierletter", "Lm"), ("otherletter", "Lo"), ("mark", "M"),
   ("nonspacingmark", "Mn"), ("spacingmark", "Mc"), ("enclosingmark", "Me"), ("number", "N"),
   ("decimalnumber", "Nd"), ("letternumber", "Nl"), ("othernumber", "No"), ("punctuation", "P"),
   ("connectorpunctuation", "Pc"), ("dashpunctuation", "Pd"), ("openpunctuation", "Ps"),
   ("closepunctuation", "Pe"), ("initialpunctuation", "Pi"), ("finalpunctuation", "Pf"),
   ("otherpunctuation", "Po"), ("symbol", "S"), ("mathsymbol", "Sm"), ("currencysymbol", "Sc"),
   ("modifiersymbol", "Sk"), ("othersymbol", "So"), ("separator", "Z"),
   ("spaceseparator", "Zs"), ("lineseparator", "Zl"), ("paragraphseparator", "Zp"),
   ("other", "C"), ("control", "Cc"), ("format", "Cf"), ("privateuse", "Co"),
   ("unassigned", "Cn"), ("digit", "Nd"), ("punct", "P"), ("combiningmark", "M"),
   ("cntrl", "Cc")]

def categoryClass (code : String) : CharClass :=
  ⟨fun c => code.toList.isPrefixOf (Text.category c).toList, 600⟩

def category? (name : String) : Option CharClass :=
  match categoryNames.lookup name with
  | some code => some (categoryClass code)
  | none =>
    (categoryNames.find? fun e => e.2.map Char.toLower = name).map fun e => categoryClass e.2

def script? (name : String) : Option CharClass :=
  (Text.Script.all.find? fun e => e.1.contains name).map fun e => .ofRanges e.2

def binaryProperty? (name : String) : Option CharClass :=
  if name = "alphabetic" ∨ name = "alpha" then some ⟨Text.isAlphabetic, 1500⟩
  else if name = "lowercase" ∨ name = "lower" then some ⟨Text.isLowercase, 1200⟩
  else if name = "uppercase" ∨ name = "upper" then some ⟨Text.isUppercase, 1200⟩
  else if name = "whitespace" ∨ name = "space" ∨ name = "wspace" then some ⟨Text.isWhiteSpace, 10⟩
  else if name = "cased" then some ⟨Text.isCased, 1200⟩
  else if name = "caseignorable" ∨ name = "ci" then some ⟨Text.isCaseIgnorable, 800⟩
  else none

/-- Letter case, blanks, hyphens, underscores and a leading `is` do not count in the
name of a property. -/
def plainName (name : List Char) : String :=
  let kept := (name.filter fun c => c ≠ ' ' ∧ c ≠ '-' ∧ c ≠ '_').map Char.toLower
  match kept with
  | ['i', 's', 'c'] => "isc"
  | 'i' :: 's' :: rest => String.ofList rest
  | _ => String.ofList kept

def anyClass : CharClass := ⟨fun _ => true, 10⟩

def generalName? (name : String) : Option CharClass :=
  if name = "any" then some anyClass
  else if name = "assigned" then some (categoryClass "Cn").compl
  else if name = "ascii" then some ⟨fun c => c.toNat < 128, 1⟩
  else if name = "lc" ∨ name = "casedletter" then
    some (((categoryClass "Lu").union (categoryClass "Ll")).union (categoryClass "Lt"))
  else category? name

/-- The class that a property's name, or its name and value, stands for. -/
def property? (name : List Char) : Option CharClass :=
  let (key, value) := name.span fun c => c ≠ '=' ∧ c ≠ ':'
  match value with
  | [] =>
    let plain := plainName name
    ((binaryProperty? plain).or (generalName? plain)).or (script? plain)
  | _ :: value =>
    let negated := key.getLast? = some '!'
    let key := plainName (if negated then key.dropLast else key)
    let found :=
      if key = "gc" ∨ key = "generalcategory" ∨ key = "category" then generalName? (plainName value)
      else if key = "sc" ∨ key = "script" ∨ key = "scx" ∨ key = "scriptextensions" then
        script? (plainName value)
      else none
    if negated then found.map CharClass.compl else found

/-- What a backslash introduces. -/
inductive Escape where
  | char (c : Char)
  | set (set : CharClass)
  | look (condition : Look)

/-- The `\p` and `\P` classes. -/
def propertyEscape? (f : Flags) (negated : Bool) (s : List Char) :
    Option (CharClass × List Char) := do
  if !f.unicode then none
  let (name, rest) ←
    match f.skip s with
    | '\x7b' :: rest => untilBrace f rest
    | c :: rest => if c = '\\' then none else some ([c], rest)
    | [] => none
  let set ← property? name
  let set := foldWith f set
  return (if negated then set.compl else set, rest)

/-- The character that `\x`, `\u` and `\U` write with `n` digits or in braces. -/
def hexEscape? (f : Flags) (n : Nat) (s : List Char) : Option (Char × List Char) := do
  let (digits, rest) ←
    match f.skip s with
    | '\x7b' :: rest => untilBrace f rest
    | s => takeChars f n s
  return (← Text.charOfHex? digits, rest)

/-- The kinds of word boundary that a name in braces selects. A brace that holds
anything else belongs to a repetition. -/
def boundary? (f : Flags) (s : List Char) : Option (Look × List Char) :=
  let isWord := wordTest f
  let plain : Option (Look × List Char) := some (.boundary isWord true, s)
  match s with
  | '\x7b' :: inside =>
    let inside := f.skip inside
    let isName (c : Char) : Bool := c.isAlpha || c = '-'
    match inside with
    | [] => none
    | c :: _ =>
      if !isName c then plain
      else
        let name := inside.takeWhile fun c => isName c || (f.ignoreBlanks && Text.isWhiteSpace c)
        match inside.drop name.length with
        | '\x7d' :: rest =>
          let name := String.ofList (name.filter isName)
          if name = "start" then some (.word isWord (some false) (some true), rest)
          else if name = "end" then some (.word isWord (some true) (some false), rest)
          else if name = "start-half" then some (.word isWord (some false) none, rest)
          else if name = "end-half" then some (.word isWord none (some false), rest)
          else none
        | _ => none
  | _ => plain

/-- The escape whose backslash was read. -/
def escape? (f : Flags) : List Char → Option (Escape × List Char)
  | [] => none
  | c :: rest =>
    if c.isDigit then none
    else if c = 'x' then (hexEscape? f 2 rest).map fun e => (.char e.1, e.2)
    else if c = 'u' then (hexEscape? f 4 rest).map fun e => (.char e.1, e.2)
    else if c = 'U' then (hexEscape? f 8 rest).map fun e => (.char e.1, e.2)
    else if c = 'p' ∨ c = 'P' then
      (propertyEscape? f (c = 'P') rest).map fun e => (.set e.1, e.2)
    else if ['d', 's', 'w', 'D', 'S', 'W'].contains c then
      (letterClass? f c).map fun set => (.set set, rest)
    else if isEscapable c then some (.char c, rest)
    else if c = 'A' then some (.look .textStart, rest)
    else if c = 'z' then some (.look .textEnd, rest)
    else if c = 'b' then (boundary? f rest).map fun e => (.look e.1, e.2)
    else if c = 'B' then some (.look (.boundary (wordTest f) false), rest)
    else if c = '<' then some (.look (.word (wordTest f) (some false) (some true)), rest)
    else if c = '>' then some (.look (.word (wordTest f) (some true) (some false)), rest)
    else (controlEscape? c).map fun d => (.char d, rest)

/-! ### Classes in brackets -/

inductive SetOp where
  | inter
  | diff
  | symmDiff

def SetOp.apply (f : Flags) (op : SetOp) (left right : CharClass) : CharClass :=
  let left := foldWith f left
  let right := foldWith f right
  match op with
  | inter => left.inter right
  | diff => left.diff right
  | symmDiff => left.symmDiff right

/-- The classes before the last operator, and the one read since. -/
structure Operand where
  pending : Option (CharClass × SetOp) := none
  items : CharClass := .none

def Operand.value (f : Flags) (o : Operand) : CharClass :=
  match o.pending with
  | none => o.items
  | some (left, op) => op.apply f left o.items

def Operand.add (o : Operand) (set : CharClass) : Operand := { o with items := o.items.union set }

def Operand.operate (f : Flags) (o : Operand) (op : SetOp) : Operand :=
  { pending := some (o.value f, op) }

/-- One character or class inside brackets. -/
def classItem? (f : Flags) : List Char → Option (Escape × List Char)
  | [] => none
  | '\\' :: rest => escape? f rest
  | c :: rest => some (.char c, rest)

def classChar? (f : Flags) (c : Char) : Option CharClass :=
  if f.unicode || c.toNat < 128 then some (.single c) else none

/-- An item or a range of characters. A hyphen before the closing bracket or before
another hyphen makes no range. -/
def classRange? (f : Flags) (s : List Char) : Option (CharClass × List Char) := do
  let (first, rest) ← classItem? f s
  let rest := f.skip rest
  let alone : Option (CharClass × List Char) :=
    match first with
    | .char c => (classChar? f c).map (·, rest)
    | .set set => some (set, rest)
    | .look _ => none
  match rest with
  | [] => none
  | '-' :: behind =>
    match f.skip behind with
    | ']' :: _ => alone
    | '-' :: _ => alone
    | behind =>
      let (second, rest) ← classItem? f behind
      match first, second with
      | .char a, .char b =>
        let _ ← classChar? f a
        let _ ← classChar? f b
        if a ≤ b then some (.range a b, rest) else none
      | _, _ => none
  | _ => alone

/-- A named ASCII class such as `[:alpha:]`, whose opening bracket was read. -/
def namedClass? (f : Flags) : List Char → Option (CharClass × List Char)
  | ':' :: rest =>
    let (negated, rest) := match rest with
      | '^' :: rest => (true, rest)
      | rest => (false, rest)
    let name := rest.takeWhile (· ≠ ':')
    match rest.drop name.length with
    | ':' :: ']' :: rest =>
      (asciiClass? (String.ofList name)).map fun set =>
        let set := foldWith f set
        (if negated then set.compl else set, rest)
    | _ => none
  | _ => none

/-- The hyphens at the start of a class. -/
def leadingHyphens (f : Flags) : List Char → Nat × List Char
  | '-' :: rest =>
    let e := leadingHyphens f (f.skip rest)
    (e.1 + 1, e.2)
  | s => (0, s)
termination_by s => s.length
decreasing_by
  have : (f.skip rest).length ≤ rest.length := by
    have drop : ∀ (b : Bool) (s : List Char), (skipComments b s).length ≤ s.length := by
      intro b s
      induction s generalizing b with
      | nil => simp [skipComments]
      | cons c s ih =>
        cases b
        · simp only [skipComments]
          split
          · exact Nat.le_succ_of_le (ih false)
          · split
            · exact Nat.le_succ_of_le (ih true)
            · exact Nat.le_refl _
        · exact Nat.le_succ_of_le (ih _)
    unfold Flags.skip
    split
    · exact drop false rest
    · exact Nat.le_refl _
  simp only [List.length_cons]
  omega

mutual

/-- The class whose opening bracket was read, up to its closing one. -/
def class? (f : Flags) : Nat → List Char → Option (CharClass × List Char)
  | 0, _ => none
  | fuel + 1, s => do
    let s := f.skip s
    let (negated, s) := match s with
      | '^' :: rest => (true, f.skip rest)
      | s => (false, s)
    let (hyphens, s) := leadingHyphens f s
    let operand : Operand := if hyphens > 0 then { items := .single '-' } else {}
    let (operand, s) := match hyphens, s with
      | 0, ']' :: rest => (operand.add (.single ']'), f.skip rest)
      | _, s => (operand, s)
    let (set, rest) ← classRest? f fuel operand s
    let set := foldWith f set
    return (← checked f (if negated then set.compl else set), rest)

/-- The rest of a class, with what was read of it. -/
def classRest? (f : Flags) : Nat → Operand → List Char → Option (CharClass × List Char)
  | 0, _, _ => none
  | fuel + 1, o, s =>
    match f.skip s with
    | [] => none
    | ']' :: rest => some (o.value f, rest)
    | '[' :: rest =>
      match namedClass? f rest with
      | some (set, rest) => classRest? f fuel (o.add set) rest
      | none => do
        let (set, rest) ← class? f fuel rest
        classRest? f fuel (o.add set) rest
    | '&' :: '&' :: rest => classRest? f fuel (o.operate f .inter) rest
    | '-' :: '-' :: rest => classRest? f fuel (o.operate f .diff) rest
    | '~' :: '~' :: rest => classRest? f fuel (o.operate f .symmDiff) rest
    | s => do
      let (set, rest) ← classRange? f s
      classRest? f fuel (o.add set) rest

end

/-! ### Repetitions and flags -/

/-- A decimal number between blanks. -/
def decimal? (f : Flags) (s : List Char) : Option (Nat × List Char) :=
  let s := s.dropWhile Text.isWhiteSpace
  let isPart (c : Char) : Bool := c.isDigit || (f.ignoreBlanks && Text.isWhiteSpace c)
  let digits := (s.takeWhile isPart).filter Char.isDigit
  let rest := (s.dropWhile isPart).dropWhile Text.isWhiteSpace
  let n := Text.decimalNumber digits
  if digits.isEmpty ∨ n ≥ 0x100000000 then none else some (n, rest)

/-- The bounds in braces, whose opening brace was read. -/
def bounds? (f : Flags) (s : List Char) : Option (Nat × Option Nat × List Char) := do
  let (least, s) ← decimal? f (f.skip s)
  match s with
  | '\x7d' :: rest => some (least, some least, rest)
  | ',' :: rest =>
    match f.skip rest with
    | '\x7d' :: rest => some (least, none, rest)
    | s =>
      let (most, s) ← decimal? f s
      match s with
      | '\x7d' :: rest => if least ≤ most then some (least, some most, rest) else none
      | _ => none
  | _ => none

/-- A question mark behind a repetition only says which match is preferred. -/
def skipLazy (f : Flags) (s : List Char) : List Char :=
  match f.skip s with
  | '?' :: rest => rest
  | _ => s

def Flags.set? (f : Flags) (value : Bool) (c : Char) : Option Flags :=
  if c = 'i' then some { f with caseInsensitive := value }
  else if c = 'm' then some { f with multiLine := value }
  else if c = 's' then some { f with dotMatchesNewline := value }
  else if c = 'U' then some { f with swapGreed := value }
  else if c = 'u' then some { f with unicode := value }
  else if c = 'R' then some { f with crlf := value }
  else if c = 'x' then some { f with ignoreBlanks := value }
  else none

/-- The flags of `(?flags)` or `(?flags:`: each once, at most one hyphen, and a flag
behind it. The result has the character that ended them and the rest. -/
def flags? (f : Flags) (seen : List Char) : List Char → Option (Flags × Bool × Char × List Char)
  | [] => none
  | c :: rest =>
    if c = ':' ∨ c = ')' then
      if seen.head? = some '-' then none else some (f, seen.isEmpty, c, rest)
    else if seen.contains c then none
    else if c = '-' then flags? f (c :: seen) rest
    else do flags? (← f.set? (!seen.contains '-') c) (c :: seen) rest

/-- The name of a group, up to the closing angle bracket. -/
def groupName? (s : List Char) : Option (String × List Char) :=
  let name := s.takeWhile (· ≠ '>')
  let isStart (c : Char) : Bool := c = '_' || Text.isAlphabetic c
  let isPart (c : Char) : Bool :=
    isStart c || Text.isNumeric c || c = '.' || c = '[' || c = ']'
  match name, s.drop name.length with
  | c :: others, _ :: rest =>
    if isStart c && others.all isPart then some (String.ofList name, rest) else none
  | _, _ => none

/-! ### Patterns -/

def dot (f : Flags) : CharClass :=
  if f.dotMatchesNewline then anyClass
  else if f.crlf then ⟨fun c => c ≠ '\n' && c ≠ '\r', 10⟩
  else ⟨(· ≠ '\n'), 10⟩

def lineStart (f : Flags) : Look :=
  if !f.multiLine then .textStart else if f.crlf then .crlfStart else .lineStart

def lineEnd (f : Flags) : Look :=
  if !f.multiLine then .textEnd else if f.crlf then .crlfEnd else .lineEnd

def literal (f : Flags) (c : Char) : Pattern :=
  if f.unicode || c.toNat < 128 then .char (foldWith f (.single c)) else .char (.single c)

/-- The pattern of an escape. Without Unicode meaning `\xff` would be a byte that is no
character. -/
def ofEscape? (f : Flags) (written : List Char) : Escape → Option Pattern
  | .char c =>
    if !f.unicode && written.head? = some 'x' && 128 ≤ c.toNat && c.toNat < 256 then none
    else some (literal f c)
  | .set set => (checked f set).map Pattern.char
  | .look condition => some (.look condition)

/-- The parts of a branch, last first. A flag directive is a part that nothing can
repeat. -/
abbrev Parts := List (Option Pattern)

def Parts.pattern (parts : Parts) : Pattern := .sequence (parts.reverse.filterMap id)

/-- The last part, repeated. -/
def Parts.repeatLast? (parts : Parts) (least : Nat) (most : Option Nat) : Option Parts :=
  match parts with
  | some p :: rest => some (some (.repeat p least most) :: rest)
  | _ => none

mutual

/-- Alternatives up to a closing parenthesis or the end, with those read before. Each
step reads a character, so a `fuel` beyond the length of the text is never used up. -/
def alternatives? : Nat → Cursor → Parts → Option (Pattern × Cursor)
  | 0, _, _ => none
  | fuel + 1, k, parts =>
    let k := k.skip
    match k.rest with
    | [] => some (parts.pattern, k)
    | ')' :: _ => some (parts.pattern, k)
    | '|' :: rest => do
      let (others, k) ← alternatives? fuel { k with rest } []
      return (.alt parts.pattern others, k)
    | '(' :: rest => do
      let (part, k) ← group? fuel { k with rest := k.flags.skip rest }
      alternatives? fuel k (part :: parts)
    | '[' :: rest => do
      let (set, rest) ← class? k.flags fuel rest
      alternatives? fuel { k with rest } (some (.char set) :: parts)
    | '?' :: rest => do
      let parts ← Parts.repeatLast? parts 0 (some 1)
      alternatives? fuel { k with rest := skipLazy k.flags rest } parts
    | '*' :: rest => do
      let parts ← Parts.repeatLast? parts 0 none
      alternatives? fuel { k with rest := skipLazy k.flags rest } parts
    | '+' :: rest => do
      let parts ← Parts.repeatLast? parts 1 none
      alternatives? fuel { k with rest := skipLazy k.flags rest } parts
    | '\x7b' :: rest => do
      let (least, most, rest) ← bounds? k.flags rest
      let parts ← Parts.repeatLast? parts least most
      alternatives? fuel { k with rest := skipLazy k.flags rest } parts
    | '\\' :: rest => do
      let (escape, behind) ← escape? k.flags rest
      let p ← ofEscape? k.flags rest escape
      alternatives? fuel { k with rest := behind } (some p :: parts)
    | '.' :: rest => do
      let set ← checked k.flags (dot k.flags)
      alternatives? fuel { k with rest } (some (.char set) :: parts)
    | '^' :: rest => alternatives? fuel { k with rest } (some (.look (lineStart k.flags)) :: parts)
    | '$' :: rest => alternatives? fuel { k with rest } (some (.look (lineEnd k.flags)) :: parts)
    | c :: rest => alternatives? fuel { k with rest } (some (literal k.flags c) :: parts)

/-- A group or a flag directive whose opening parenthesis was read. -/
def group? : Nat → Cursor → Option (Option Pattern × Cursor)
  | 0, _ => none
  | fuel + 1, k =>
    match k.rest with
    | '?' :: 'P' :: '<' :: rest => named? fuel k rest
    | '?' :: '<' :: rest => named? fuel k rest
    | '?' :: rest => do
      let (flags, isEmpty, closing, rest) ← flags? k.flags [] rest
      if closing = ')' then
        if isEmpty then none else some (none, { k with rest, flags })
      else body? fuel k { k with rest, flags }
    | _ => body? fuel k k

/-- A group with a name that no other one has. -/
def named? : Nat → Cursor → List Char → Option (Option Pattern × Cursor)
  | 0, _, _ => none
  | fuel + 1, k, s => do
    let (name, rest) ← groupName? s
    if k.names.contains name then none
    body? fuel k { k with rest, names := name :: k.names }

/-- The body of a group, after which the flags of `outer` are in force again. -/
def body? : Nat → Cursor → Cursor → Option (Option Pattern × Cursor)
  | 0, _, _ => none
  | fuel + 1, outer, k => do
    let (p, k) ← alternatives? fuel k []
    match k.rest with
    | ')' :: rest => some (some p, { k with rest, flags := outer.flags })
    | _ => none

end

/-- Automata of more states are refused. -/
def sizeLimit : Nat := 327680

/-- The pattern that the whole text writes. -/
def Pattern.parse? (text : String) : Option Pattern := do
  let (p, k) ← alternatives? (4 * text.length + 4) { rest := text.toList } []
  if k.rest.isEmpty && p.size ≤ sizeLimit then some p else none

end HornReasoner.Regex
