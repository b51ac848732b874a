/-
AuditSettings.Toml.Grammar — which rows of tokens are documents.

Reading a document is a walk over its tokens, one step a token. A `Draft`
is the document so far: the finished items and what may come next. What
may come next includes the `Place` of a value that is still open, a path
from that value out through the arrays and inline tables around it to the
pair on whose line it stands.

Every fault is met at the token that shows it, so the first fault of the
text is the one that ends the walk. White space and comments are passed
over between the others, except that no white space may follow the two
brackets that open an array header, or part the two that close it.
-/
import AuditSettings.Toml.Document
import AuditSettings.Text.Split

namespace AuditSettings.Toml

open AuditSettings.Text

/-- Where a value that is still to be read belongs. -/
inductive Place where
  /-- To the pair of this key at the start of a line. -/
  | line (key : Key)
  /-- To an array, after the given items (last first). -/
  | item (outer : Place) (location : Location) (before : List Expr)
  /-- To this key of an inline table, after the given pairs (last
  first). -/
  | pair (outer : Place) (location : Location) (before : List (Key × Expr)) (key : Key)

/-- What a key that is being read is the key of. -/
inductive KeyUse where
  | header (location : Location)
  | arrayHeader (location : Location)
  | line
  /-- A pair of an inline table, after the given pairs (last first). -/
  | pair (outer : Place) (location : Location) (before : List (Key × Expr))

/-- What was read last inside an array or inline table. -/
inductive Separation where
  | opened
  | value
  | comma
deriving DecidableEq

/-- What may come next. -/
inductive Expecting where
  /-- An item, if a line break was read since the last one. -/
  | item (onNewLine : Bool)
  /-- The rest of a header whose first bracket was just read. -/
  | headerKind (location : Location)
  /-- A name, first of a key or after the dot that follows `before`. -/
  | name (use : KeyUse) (before : Option Key)
  /-- A dot, or what follows the key. -/
  | keyEnd (use : KeyUse) (key : Key)
  /-- The second closing bracket of an array header. -/
  | secondBracket (location : Location) (key : Key)
  | value (place : Place)
  /-- An item, a comma, or the end of an array. -/
  | arrayRest (outer : Place) (location : Location) (before : List Expr) (last : Separation)
  /-- A pair, a comma, or the end of an inline table. -/
  | inlineRest (outer : Place) (location : Location) (before : List (Key × Expr))
      (last : Separation)

/-- A document of which some tokens have been read. -/
structure Draft where
  /-- The finished items, last first. -/
  items : List Item
  expecting : Expecting

/-! ## Single tokens -/

/-- The key that a token writes. A number with a point is two names. -/
def Token.key (t : Token) : Except SyntaxError Key :=
  let name (cs : List Char) (l : Location) : KeyPart := ⟨String.ofList cs, l⟩
  match t.kind with
  | .bare | .boolean | .hexInteger | .octalInteger | .binaryInteger =>
    .ok (.single (name t.text t.start))
  | .integer =>
    if t.text.head? = some '+' then .error ⟨.identifierExpected, t.start⟩
    else .ok (.single (name t.text t.start))
  | .float =>
    if t.text.head? = some '0' then .error ⟨.paddedNumber, t.start⟩
    else if t.text.head? = some '+' then .error ⟨.identifierExpected, t.start⟩
    else
      match splitOnce '.' t.text with
      | some (whole, part) =>
        .ok ⟨name whole t.start, [name part (t.start.after (whole ++ ['.']))]⟩
      | none => .ok (.single (name t.text t.start))
  | .basic | .literal => return .single ⟨← t.string, t.start⟩
  | _ => .error ⟨.identifierExpected, t.start⟩

/-- Refuses a comment with a control character in it. -/
def Token.checkComment (t : Token) : Except SyntaxError Unit :=
  t.refuse refusedInLiteral .commentCharacter

/-! ## Steps -/

/-- What comes after a value has been put in its place, and the item that
this finishes, if it does. -/
def Place.fill : Place → Expr → List Item × Expecting
  | .line key, v => ([.pair key v], .item false)
  | .item outer l before, v => ([], .arrayRest outer l (v :: before) .value)
  | .pair outer l before key, v => ([], .inlineRest outer l ((key, v) :: before) .value)

namespace Draft

/-- The draft before the first token. -/
def empty : Draft := ⟨[], .item true⟩

/-- The draft with other expectations. -/
def expect (d : Draft) (e : Expecting) : Draft := { d with expecting := e }

/-- The draft with one more item. -/
def close (d : Draft) (i : Item) : Draft := ⟨i :: d.items, .item false⟩

/-- The draft with a value put in its place. -/
def fill (d : Draft) (place : Place) (v : Expr) : Draft :=
  let (items, e) := place.fill v
  ⟨items ++ d.items, e⟩

/-- Reads a name. -/
def takeName (d : Draft) (use : KeyUse) (before : Option Key) (t : Token) :
    Except SyntaxError Draft :=
  if before.isSome && t.kind = .dot then .error ⟨.unexpectedDot, t.start⟩
  else do
    let key ← t.key
    return d.expect (.keyEnd use (before.elim key (·.append key)))

/-- Reads what follows a key, other than a dot. -/
def takeKeyEnd (d : Draft) (key : Key) (t : Token) : KeyUse → Except SyntaxError Draft
  | .header l =>
    if t.kind = .bracketClose then .ok (d.close (.heading (.table l key)))
    else .error ⟨.headerEndExpected, t.start⟩
  | .arrayHeader l =>
    if t.kind = .bracketClose then .ok (d.expect (.secondBracket l key))
    else .error ⟨.arrayHeaderEndExpected, t.start⟩
  | .line =>
    if t.kind = .equals then .ok (d.expect (.value (.line key)))
    else .error ⟨.equalsExpected, t.start⟩
  | .pair outer l before =>
    if t.kind = .equals then .ok (d.expect (.value (.pair outer l before key)))
    else .error ⟨.equalsExpected, t.start⟩

/-- Reads a value or the bracket that opens one. -/
def takeValue (d : Draft) (place : Place) (t : Token) : Except SyntaxError Draft :=
  match t.kind with
  | .bracketOpen => .ok (d.expect (.arrayRest place t.start [] .opened))
  | .braceOpen => .ok (d.expect (.inlineRest place t.start [] .opened))
  | _ => do return d.fill place (.scalar t.start (← t.scalar))

/-- Reads a token that is neither white space nor a comment. -/
def takeMark (d : Draft) (t : Token) : Except SyntaxError Draft :=
  match d.expecting with
  | .item onNewLine =>
    if t.kind = .newline then .ok (d.expect (.item true))
    else if !onNewLine then .error ⟨.newLineExpected, t.start⟩
    else if t.kind = .bracketOpen then .ok (d.expect (.headerKind t.start))
    else d.takeName .line none t
  | .headerKind l =>
    if t.kind = .bracketOpen then .ok (d.expect (.name (.arrayHeader l) none))
    else d.takeName (.header l) none t
  | .name use before => d.takeName use before t
  | .keyEnd use key =>
    if t.kind = .dot then .ok (d.expect (.name use (some key))) else d.takeKeyEnd key t use
  | .secondBracket l key =>
    if t.kind = .bracketClose then .ok (d.close (.heading (.element l key)))
    else .error ⟨.secondBracketExpected, t.start⟩
  | .value place => d.takeValue place t
  | .arrayRest outer l before last =>
    match t.kind with
    | .newline => .ok d
    | .bracketClose => .ok (d.fill outer (.array l before.reverse))
    | .comma =>
      if last = .value then .ok (d.expect (.arrayRest outer l before .comma))
      else .error ⟨.unexpectedComma, t.start⟩
    | _ =>
      if last = .value then .error ⟨.commaExpected, t.start⟩
      else d.takeValue (.item outer l before) t
  | .inlineRest outer l before last =>
    match t.kind with
    | .newline => .error ⟨.newlineInInlineTable, t.start⟩
    | .braceClose =>
      if last = .comma then .error ⟨.trailingComma, t.start⟩
      else .ok (d.fill outer (.inlineTable l before.reverse))
    | .comma =>
      if last = .value then .ok (d.expect (.inlineRest outer l before .comma))
      else .error ⟨.unexpectedComma, t.start⟩
    | _ =>
      if last = .value then .error ⟨.commaExpected, t.start⟩
      else d.takeName (.pair outer l before) none t

/-- Passes over what stands between two tokens. A header that was opened
by one bracket is then a table header. -/
def takeGap (d : Draft) : Draft :=
  match d.expecting with
  | .headerKind l => d.expect (.name (.header l) none)
  | _ => d

/-- Reads white space, which may not stand right after the two brackets
that open an array header, nor between the two that close it. -/
def takeBlank (d : Draft) (t : Token) : Except SyntaxError Draft :=
  match d.expecting with
  | .name (.arrayHeader _) none => .error ⟨.identifierExpected, t.start⟩
  | .secondBracket _ _ => .error ⟨.secondBracketExpected, t.start⟩
  | _ => .ok d.takeGap

/-- Reads one token. -/
def take (d : Draft) (t : Token) : Except SyntaxError Draft :=
  match t.kind with
  | .stray => .error ⟨.unexpectedToken, t.start⟩
  | .comment => t.checkComment.map fun _ => d.takeGap
  | .blank => d.takeBlank t
  | _ => d.takeMark t

/-- The document, when the text ends at `l` after this draft. An array
header may lack its second bracket there. -/
def finish (d : Draft) (l : Location) : Except SyntaxError Document :=
  match d.expecting with
  | .item _ => .ok (.ofItems d.items.reverse)
  | .secondBracket l key => .ok (.ofItems (.heading (.element l key) :: d.items).reverse)
  | .headerKind _ => .error ⟨.identifierExpected, l⟩
  | .name _ none => .error ⟨.identifierExpected, l⟩
  | .name _ (some _) => .error ⟨.endAfterDot, l⟩
  | .keyEnd _ _ => .error ⟨.unexpectedEnd, l⟩
  | .value _ => .error ⟨.valueExpected, l⟩
  | .arrayRest _ _ _ _ => .error ⟨.unexpectedEnd, l⟩
  | .inlineRest _ _ _ _ => .error ⟨.inlineTableEndExpected, l⟩

end Draft

/-- The document that a row of tokens is, when the text ends at `l`. -/
def Document.ofTokens (ts : List Token) (l : Location) : Except SyntaxError Document := do
  let d ← ts.foldlM Draft.take .empty
  d.finish l

/-- The document that a text is. -/
def Document.ofText (cs : List Char) : Except SyntaxError Document :=
  Document.ofTokens (Token.scan cs) (Location.origin.after cs)

end AuditSettings.Toml
