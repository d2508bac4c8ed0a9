/-
Reading schema documents.

The grammar is read with one token of lookahead, two where a description precedes a definition.
Every `Reader` is total: a repetition is bounded by the number of tokens of the text, which is
never reached since each step takes a token.  Values, types and selections that nest are bounded
by a limit of the language itself (`nestingLimit`): each reader of them is given the room that is
left, the number of levels that may still be opened.

A token that cannot be divided off the text is reported when the token in front of it is taken,
so of two faults the one further to the left wins (`advance`).
-/
import SchemaLoom.Sdl.Document
import SchemaLoom.Sdl.Token.Lexer
import SchemaLoom.Text.CharClass

namespace SchemaLoom.Sdl

/-- What a reader was looking for. -/
inductive Expectation where
  | name
  | endOfText
  | mark (mark : Punctuator)
  | keyword (word : String)
  deriving DecidableEq, Repr

/-- How messages name an expectation. -/
def Expectation.text : Expectation → String
  | name => "Name"
  | endOfText => "<EOF>"
  | mark m => "'" ++ m.text ++ "'"
  | keyword word => "'" ++ word ++ "'"

/-- Why a text is no document. -/
inductive SyntaxFault where
  | lexical (fault : LexFault)
  /-- A definite token was required. -/
  | expected (wanted : Expectation) (found : Token)
  /-- No rule of the grammar goes on with this token. -/
  | unexpected (found : Token)
  /-- A constant value mentions a variable. -/
  | variableInConstant (name : String)
  /-- An enum value is named like a literal. -/
  | reservedEnumValue (found : Token)
  /-- A description precedes a query without keyword. -/
  | describedShorthand
  /-- A description precedes something that takes none. -/
  | describedOther
  /-- More levels are open than a document may nest. -/
  | nestedTooDeeply
  deriving DecidableEq, Repr

/-- A character as messages name it. -/
def describeChar : Option Char → String
  | none => "<EOF>"
  | some c =>
    if c = '"' then "'\"'"
    else if 32 ≤ c.toNat ∧ c.toNat < 127 then String.ofList ['\'', c, '\'']
    else Text.codePointName c

/-- The wording of a lexical fault. -/
def LexFault.message : LexFault → String
  | unterminatedString => "Unterminated string."
  | badEscape sequence => "Invalid character escape sequence: '" ++ sequence ++ "'."
  | badUnicodeEscape sequence => "Invalid Unicode escape sequence: '" ++ sequence ++ "'."
  | digitExpected found => "Invalid number, expected digit but got: " ++ describeChar found ++ "."
  | digitAfterZero found =>
    "Invalid number, unexpected digit after 0: " ++ describeChar found ++ "."
  | singleQuote =>
    "Unexpected single quote character ('), did you mean to use a double quote (\")?"
  | unexpectedCharacter found => "Unexpected character: " ++ describeChar (some found) ++ "."

/-- The wording of a fault. -/
def SyntaxFault.message (fault : SyntaxFault) : String :=
  "Syntax Error: " ++
    match fault with
    | lexical fault => fault.message
    | expected wanted found => "Expected " ++ wanted.text ++ ", found " ++ found.describe ++ "."
    | unexpected found => "Unexpected " ++ found.describe ++ "."
    | variableInConstant name => "Unexpected variable '$" ++ name ++ "' in constant value."
    | reservedEnumValue found =>
      found.describe ++ " is reserved and cannot be used for an enum value."
    | describedShorthand =>
      "Unexpected description, descriptions are not supported on shorthand queries."
    | describedOther => "Unexpected description, only GraphQL definitions support descriptions."
    | nestedTooDeeply => "Document is nested too deeply. Parsing aborted."

/-- A reader takes tokens off the front of a sequence; it knows a bound on its repetitions. -/
abbrev Reader := ReaderT Nat (StateT (List Token) (Except SyntaxFault))

namespace Reader

/-! ### Single tokens -/

/-- The next token. -/
def peek : Reader Token := return (← get).headD .eof

/-- The token after the next one. -/
def peekSecond : Reader Token := do
  match (← get).drop 1 with
  | .invalid fault :: _ => throw (.lexical fault)
  | t :: _ => return t
  | [] => return .eof

/-- Takes the next token. -/
def advance : Reader Unit := do
  match (← get).drop 1 with
  | .invalid fault :: _ => throw (.lexical fault)
  | rest => set rest

/-- Fails at the next token. -/
def unexpected {α : Type} : Reader α := do throw (.unexpected (← peek))

/-- Takes a punctuation mark. -/
def mark (m : Punctuator) : Reader Unit := do
  let t ← peek
  if t = .punctuator m then advance else throw (.expected (.mark m) t)

/-- Takes a punctuation mark if it comes next. -/
def optionalMark (m : Punctuator) : Reader Bool := do
  if (← peek) = .punctuator m then
    advance
    return true
  else return false

/-- Takes a name. -/
def name : Reader String := do
  match ← peek with
  | .name n =>
    advance
    return n
  | t => throw (.expected .name t)

/-- Takes a keyword. -/
def keyword (word : String) : Reader Unit := do
  let t ← peek
  if t = .name word then advance else throw (.expected (.keyword word) t)

/-- Takes a keyword if it comes next. -/
def optionalKeyword (word : String) : Reader Bool := do
  if (← peek) = .name word then
    advance
    return true
  else return false

/-- Requires the end of the text. -/
def endOfText : Reader Unit := do
  let t ← peek
  if t = .eof then return () else throw (.expected .endOfText t)

/-! ### Repetition -/

/-- Items up to a closing mark, at most `bound` of them. -/
def itemsWithin {α : Type} (closing : Punctuator) (item : Reader α) : Nat → Reader (List α)
  | 0 => unexpected
  | bound + 1 => do
    if ← optionalMark closing then return []
    let first ← item
    return first :: (← itemsWithin closing item bound)

/-- Items up to a closing mark, which is taken. -/
def itemsUntil {α : Type} (closing : Punctuator) (item : Reader α) : Reader (List α) := do
  itemsWithin closing item (← read)

/-- At least one item up to a closing mark. -/
def someUntil {α : Type} (closing : Punctuator) (item : Reader α) : Reader (List α) := do
  let first ← item
  return first :: (← itemsUntil closing item)

/-- At least one item between marks. -/
def someBetween {α : Type} (opening closing : Punctuator) (item : Reader α) : Reader (List α) := do
  mark opening
  someUntil closing item

/-- At least one item between marks, or nothing at all. -/
def optionalBetween {α : Type} (opening closing : Punctuator) (item : Reader α) :
    Reader (List α) := do
  if ← optionalMark opening then someUntil closing item else return []

/-- Items as long as the test holds for the next token, at most `bound` of them. -/
def whileWithin {α : Type} (test : Token → Bool) (item : Reader α) : Nat → Reader (List α)
  | 0 => return []
  | bound + 1 => do
    if test (← peek) then
      let first ← item
      return first :: (← whileWithin test item bound)
    else return []

/-- Items as long as the test holds for the next token. -/
def whileNext {α : Type} (test : Token → Bool) (item : Reader α) : Reader (List α) := do
  whileWithin test item (← read)

/-- At least one item with marks between them, and an optional mark in front. -/
def separatedBy {α : Type} (m : Punctuator) (item : Reader α) : Reader (List α) := do
  let _ ← optionalMark m
  let first ← item
  let others ← whileNext (· == .punctuator m) do
    mark m
    item
  return first :: others

/-! ### Values, types and directives -/

/-- A name that stands for a value. -/
def namedValue : String → Value
  | "true" => .boolean true
  | "false" => .boolean false
  | "null" => .null
  | n => .enum n

/-- A variable where only constants are allowed. -/
def forbiddenVariable {α : Type} : Reader α := do
  let dollar ← peek
  advance
  match ← peek with
  | .name n => throw (.variableInConstant n)
  | _ => throw (.unexpected dollar)

/-- The number of levels that selections, lists, objects and list types may open together. -/
def nestingLimit : Nat := 200

/-- A value that may open `room` levels. -/
def valueWithin (isConstant : Bool) (room : Nat) : Reader Value := do
  match ← peek with
  | .int digits =>
    advance
    return .int digits
  | .float digits =>
    advance
    return .float digits
  | .string text =>
    advance
    return .string text false
  | .blockString text =>
    advance
    return .string text true
  | .name n =>
    advance
    return namedValue n
  | .punctuator .bracketLeft =>
    match room with
    | 0 => throw .nestedTooDeeply
    | room + 1 =>
      advance
      return .list (← itemsUntil .bracketRight (valueWithin isConstant room))
  | .punctuator .braceLeft =>
    match room with
    | 0 => throw .nestedTooDeeply
    | room + 1 =>
      advance
      return .object (← itemsUntil .braceRight do
        let key ← name
        mark .colon
        return (key, ← valueWithin isConstant room))
  | .punctuator .dollar =>
    if isConstant then forbiddenVariable
    else
      advance
      return .variable (← name)
  | t => throw (.unexpected t)

/-- An argument and its value. -/
def argument (isConstant : Bool) (room : Nat) : Reader (String × Value) := do
  let key ← name
  mark .colon
  return (key, ← valueWithin isConstant room)

/-- Arguments in parentheses, or nothing. -/
def arguments (isConstant : Bool) (room : Nat) : Reader (List (String × Value)) :=
  optionalBetween .parenLeft .parenRight (argument isConstant room)

/-- Any number of directives whose values may open `room` levels. -/
def directivesWithin (isConstant : Bool) (room : Nat) : Reader (List Directive) :=
  whileNext (· == .punctuator .at) do
    mark .at
    let n ← name
    return ⟨n, ← arguments isConstant room⟩

/-- Any number of directives outside every selection. -/
def directives (isConstant : Bool) : Reader (List Directive) :=
  directivesWithin isConstant nestingLimit

/-- A type reference that may open `room` levels.  A level is opened by its bracket, a level of a
value or of a selection in front of it. -/
def typeRefWithin (room : Nat) : Reader TypeRef := do
  let inner ←
    if ← optionalMark .bracketLeft then
      match room with
      | 0 => throw .nestedTooDeeply
      | room + 1 =>
        let item ← typeRefWithin room
        mark .bracketRight
        pure (TypeRef.list item)
    else
      pure (TypeRef.named (← name))
  if ← optionalMark .bang then return .nonNull inner else return inner

/-- A type reference. -/
def typeRef : Reader TypeRef :=
  typeRefWithin nestingLimit

/-- A default value behind an equals sign, or nothing. -/
def optionalDefault : Reader (Option Value) := do
  if ← optionalMark .equals then return some (← valueWithin true nestingLimit) else return none

/-! ### Executable definitions -/

/-- The name of a fragment: any name but `on`. -/
def fragmentName : Reader String := do
  if (← peek).value? = some "on" then unexpected else name

/-- A selection set that may open `room` levels, its own included. -/
def selectionsWithin : Nat → Reader (List Selection)
  | 0 => throw .nestedTooDeeply
  | room + 1 => do
    someBetween .braceLeft .braceRight do
      if ← optionalMark .spread then
        if ← optionalKeyword "on" then
          let condition ← name
          let ds ← directivesWithin false room
          return .inline (some condition) ds (← selectionsWithin room)
        match ← peek with
        | .name _ =>
          let n ← fragmentName
          return .spread n (← directivesWithin false room)
        | _ =>
          let ds ← directivesWithin false room
          return .inline none ds (← selectionsWithin room)
      else
        let first ← name
        let («alias», n) ←
          if ← optionalMark .colon then pure (some first, ← name) else pure (none, first)
        let args ← arguments false room
        let ds ← directivesWithin false room
        if (← peek) = .punctuator .braceLeft then
          return .field «alias» n args ds (← selectionsWithin room)
        else return .field «alias» n args ds []

/-- A selection set outside every other one. -/
def selectionSet : Reader (List Selection) :=
  selectionsWithin nestingLimit

/-- The token is a description. -/
def isDescription : Token → Bool
  | .string _ | .blockString _ => true
  | _ => false

/-- A description, or nothing. -/
def optionalDescription : Reader (Option Description) := do
  match ← peek with
  | .string text =>
    advance
    return some ⟨text, false⟩
  | .blockString text =>
    advance
    return some ⟨text, true⟩
  | _ => return none

/-- The keyword of an operation. -/
def operationKind : Reader OperationKind := do
  let t ← peek
  let word ← name
  match OperationKind.ofKeyword? word with
  | some kind => return kind
  | none => throw (.unexpected t)

/-- A variable with its type. -/
def variableDefinition : Reader VariableDefinition := do
  let description ← optionalDescription
  mark .dollar
  let n ← name
  mark .colon
  let type ← typeRef
  let default ← optionalDefault
  return ⟨description, n, type, default, ← directives true⟩

/-- An operation with its keyword. -/
def operation : Reader Operation := do
  let description ← optionalDescription
  let kind ← operationKind
  let n ←
    match ← peek with
    | .name _ => some <$> name
    | _ => pure none
  let parameters ← optionalBetween .parenLeft .parenRight variableDefinition
  let ds ← directives false
  return ⟨description, kind, n, parameters, ds, ← selectionSet⟩

/-- A fragment. -/
def fragment : Reader FragmentType := do
  let description ← optionalDescription
  keyword "fragment"
  let n ← fragmentName
  keyword "on"
  let condition ← name
  let ds ← directives false
  return ⟨description, n, condition, ds, ← selectionSet⟩

/-! ### Type definitions -/

/-- A field of an input type, or an argument. -/
def inputField : Reader InputField := do
  let description ← optionalDescription
  let n ← name
  mark .colon
  let type ← typeRef
  let default ← optionalDefault
  return ⟨description, n, type, default, ← directives true⟩

/-- A field of an object or interface type. -/
def field : Reader Field := do
  let description ← optionalDescription
  let n ← name
  let args ← optionalBetween .parenLeft .parenRight inputField
  mark .colon
  let type ← typeRef
  return ⟨description, n, args, type, ← directives true⟩

/-- The interfaces of a type, or nothing. -/
def interfaces : Reader (List String) := do
  if ← optionalKeyword "implements" then separatedBy .ampersand name else return []

/-- A root operation type. -/
def rootType : Reader (OperationKind × String) := do
  let kind ← operationKind
  mark .colon
  return (kind, ← name)

/-- The part of an object or interface type behind its keyword. -/
def objectBody (description : Option Description) : Reader ObjectType := do
  let n ← name
  let is ← interfaces
  let ds ← directives true
  return ⟨description, n, is, ds, ← optionalBetween .braceLeft .braceRight field⟩

/-- The part of an input type behind its keyword. -/
def inputBody (description : Option Description) : Reader InputType := do
  let n ← name
  let ds ← directives true
  return ⟨description, n, ds, ← optionalBetween .braceLeft .braceRight inputField⟩

/-- The part of a scalar type behind its keyword. -/
def scalarBody (description : Option Description) : Reader ScalarType := do
  let n ← name
  return ⟨description, n, ← directives true⟩

/-- The part of a union type behind its keyword. -/
def unionBody (description : Option Description) : Reader UnionType := do
  let n ← name
  let ds ← directives true
  let members ← if ← optionalMark .equals then separatedBy .pipe name else pure []
  return ⟨description, n, ds, members⟩

/-- One value of an enum type. -/
def enumValue : Reader EnumValue := do
  let description ← optionalDescription
  let t ← peek
  if ["true", "false", "null"].any (t.value? = some ·) then throw (.reservedEnumValue t)
  let n ← name
  return ⟨description, n, ← directives true⟩

/-- The part of an enum type behind its keyword. -/
def enumBody (description : Option Description) : Reader EnumType := do
  let n ← name
  let ds ← directives true
  return ⟨description, n, ds, ← optionalBetween .braceLeft .braceRight enumValue⟩

/-- The places where a directive may stand. -/
def directiveLocations : List String :=
  ["QUERY", "MUTATION", "SUBSCRIPTION", "FIELD", "FRAGMENT_DEFINITION", "FRAGMENT_SPREAD",
    "INLINE_FRAGMENT", "VARIABLE_DEFINITION", "SCHEMA", "SCALAR", "OBJECT", "FIELD_DEFINITION",
    "ARGUMENT_DEFINITION", "INTERFACE", "UNION", "ENUM", "ENUM_VALUE", "INPUT_OBJECT",
    "INPUT_FIELD_DEFINITION", "DIRECTIVE_DEFINITION"]

/-- A place where a directive may stand. -/
def directiveLocation : Reader String := do
  let t ← peek
  let n ← name
  if directiveLocations.contains n then return n else throw (.unexpected t)

/-- The part of a directive declaration behind its keyword. -/
def directiveBody (description : Option Description) : Reader DirectiveType := do
  mark .at
  let n ← name
  let args ← optionalBetween .parenLeft .parenRight inputField
  let repeatable ← optionalKeyword "repeatable"
  keyword "on"
  return ⟨description, n, args, repeatable, ← separatedBy .pipe directiveLocation⟩

/-- The part of a schema block behind its keyword. -/
def schemaBody (description : Option Description) : Reader SchemaBody := do
  let ds ← directives true
  return ⟨description, ds, ← someBetween .braceLeft .braceRight rootType⟩

/-- The type definition that a keyword announces; the keyword is still to be taken. -/
def typeDefinition? (description : Option Description) : String → Option (Reader Definition)
  | "schema" => some (.schema <$> schemaBody description)
  | "scalar" => some (.scalar <$> scalarBody description)
  | "type" => some (.object <$> objectBody description)
  | "interface" => some (.interface <$> objectBody description)
  | "union" => some (.union <$> unionBody description)
  | "enum" => some (.enum <$> enumBody description)
  | "input" => some (.input <$> inputBody description)
  | "directive" => some (.directive <$> directiveBody description)
  | _ => none

/-- Fails at the next token if an extension adds nothing. -/
def extensionOf (adds : Bool) (d : Definition) : Reader Definition :=
  if adds then return d else unexpected

/-- The extension that a keyword announces; an extension must add something. -/
def extension? : String → Option (Reader Definition)
  | "schema" => some do
    let ds ← directives true
    let roots ← optionalBetween .braceLeft .braceRight rootType
    extensionOf (!ds.isEmpty || !roots.isEmpty) (.schemaExtension ⟨none, ds, roots⟩)
  | "scalar" => some do
    let body ← scalarBody none
    extensionOf (!body.directives.isEmpty) (.scalarExtension body)
  | "type" => some do
    let body ← objectBody none
    extensionOf (!body.interfaces.isEmpty || !body.directives.isEmpty || !body.fields.isEmpty)
      (.objectExtension body)
  | "interface" => some do
    let body ← objectBody none
    extensionOf (!body.interfaces.isEmpty || !body.directives.isEmpty || !body.fields.isEmpty)
      (.interfaceExtension body)
  | "union" => some do
    let body ← unionBody none
    extensionOf (!body.directives.isEmpty || !body.members.isEmpty) (.unionExtension body)
  | "enum" => some do
    let body ← enumBody none
    extensionOf (!body.directives.isEmpty || !body.values.isEmpty) (.enumExtension body)
  | "input" => some do
    let body ← inputBody none
    extensionOf (!body.directives.isEmpty || !body.fields.isEmpty) (.inputExtension body)
  | _ => none

/-- An extension. -/
def extension : Reader Definition := do
  let t ← peekSecond
  match t with
  | .name word =>
    match extension? word with
    | some body =>
      advance
      advance
      body
    | none => throw (.unexpected t)
  | _ => throw (.unexpected t)

/-- A definition whose keyword is `word`, behind a description if `described`. -/
def definitionNamed (described : Bool) (word : String) (found : Token) : Reader Definition := do
  match typeDefinition? none word with
  | some _ =>
    let description ← optionalDescription
    advance
    match typeDefinition? description word with
    | some body => body
    | none => throw (.unexpected found)
  | none =>
    if (OperationKind.ofKeyword? word).isSome then return .operation (← operation)
    else if word = "fragment" then return .fragment (← fragment)
    else if described then throw .describedOther
    else if word = "extend" then extension
    else throw (.unexpected found)

/-- A definition. -/
def definition : Reader Definition := do
  let first ← peek
  if first = .punctuator .braceLeft then
    return .operation ⟨none, .query, none, [], [], ← selectionSet⟩
  let described := isDescription first
  let found ← if described then peekSecond else pure first
  if described ∧ found = .punctuator .braceLeft then throw .describedShorthand
  match found with
  | .name word => definitionNamed described word found
  | _ => throw (.unexpected found)

/-- Definitions up to the end of the text, at most `bound` of them. -/
def definitionsWithin : Nat → Reader (List Definition)
  | 0 => unexpected
  | bound + 1 => do
    let first ← definition
    if (← peek) = .eof then return [first]
    return first :: (← definitionsWithin bound)

/-- At least one definition, and the end of the text. -/
def definitions : Reader (List Definition) := do
  definitionsWithin (← read)

/-- Runs a reader on a whole text. -/
def run {α : Type} (reader : Reader α) (text : String) : Except SyntaxFault α :=
  match lex text.toList with
  | .invalid fault :: _ => .error (.lexical fault)
  | tokens => (StateT.run (ReaderT.run reader (tokens.length + 1)) tokens).map (·.1)

end Reader

/-- The type reference that a text consists of. -/
def TypeRef.parse (text : String) : Except SyntaxFault TypeRef :=
  Reader.run (do let t ← Reader.typeRef; Reader.endOfText; return t) text

/-- The document that a text consists of, at least one definition. -/
def Document.parseStrict (text : String) : Except SyntaxFault Document :=
  Reader.run (return ⟨← Reader.definitions⟩) text

/-- The document that a text consists of; blank text is the empty document. -/
def Document.parse (text : String) : Except SyntaxFault Document :=
  if Text.isBlank text then .ok Document.empty else Document.parseStrict text

end SchemaLoom.Sdl
