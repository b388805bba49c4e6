import LiteServer.Json
import LiteServer.Lib.IndexMap
import LiteServer.Text

/-!
# Ensemble values and configuration

The types of an ensemble: the values that flow along the edges of its DAG, the configuration as it
is read from the file, and the steps of a validated plan. A hash map of the configuration is an
`IndexMap` whose order means nothing.

The four regular expressions of the configuration are matched by hand: each has at most one way to
match, so a left-to-right scan finds it.
-/

namespace LiteServer

namespace Ensemble

/-! ### Values -/

/-- A worker's response metadata for one step; status 0 is none supplied. -/
structure StepResponseMeta where
  statusCode : ℕ
  headers : StringMap
  deriving DecidableEq, Repr

/-- Metadata of a worker's response; `none` when it supplied nothing. -/
def StepResponseMeta.fromWorker (statusCode : Int) (headers : StringMap) :
    Option StepResponseMeta :=
  let statusCode := if 0 ≤ statusCode && statusCode < 65536 then statusCode.toNat else 0
  if statusCode = 0 && headers.isEmpty then none else some ⟨statusCode, headers⟩

/-- A value of an ensemble run. The parse cache of a raw value is derived from its bytes and is
not kept. -/
inductive EnsembleValue where
  | json (v : Json)
  | rawJson (bytes : Bytes)
  | binary (data : Bytes) (contentType : String) (shape : Option (List Int))
      (datatype : Option String)
  | envelope (head : Json) (tail : Bytes)
  deriving Repr

/-- A container that was not taken apart. -/
def EnsembleValue.isEnvelope : EnsembleValue → Bool
  | .envelope _ _ => true
  | _ => false

/-- Bytes with a content type. -/
def EnsembleValue.isBinary : EnsembleValue → Bool
  | .binary _ _ _ _ => true
  | _ => false

/-- The outputs of one step under their context keys, and its response metadata. -/
structure StepResults where
  values : List (String × EnsembleValue)
  responseMeta : Option StepResponseMeta
  deriving Repr

/-! ### Configuration -/

/-- An `f64` of the configuration, as far as it is looked at. -/
structure F64 where
  display : String
  finite : Bool
  positive : Bool
  deriving DecidableEq, Repr

/-- The types of inputs and outputs. -/
inductive InputType where
  | json
  | binary
  deriving DecidableEq, Repr

/-- A value that can be a member of an assembled object. -/
def EnsembleValue.isJsonLike : EnsembleValue → Bool
  | .json _ | .rawJson _ => true
  | _ => false

/-- A value of a declared type. -/
def EnsembleValue.hasType (v : EnsembleValue) : InputType → Bool
  | .json => v.isJsonLike
  | .binary => v.isBinary

/-- The declaration of a named root input. -/
structure InputDecl where
  ty : InputType
  required : Bool := true
  default : Option Json := none
  contentType : Option String := none
  shape : Option (List Int) := none
  datatype : Option String := none
  deriving Repr

/-- An input that a request may leave out and that nothing then stands in for. -/
def InputDecl.optional (d : InputDecl) : Bool := !d.required && d.default.isNone

/-- A named output of a step: a projection of its one response. -/
structure StepOutputDecl where
  ty : InputType
  path : Option String := none
  deriving DecidableEq, Repr

/-- What becomes of a failed step. -/
inductive OnErrorKind where
  | fail
  | skip
  deriving DecidableEq, Repr

/-- The operators of a condition. -/
inductive WhenOp where
  | eq
  | neq
  | contains
  | in
  deriving DecidableEq, Repr

/-- What a condition reads. -/
inductive WhenTarget where
  | dag
  | clientIp
  | input (name : String) (path : Option String)
  deriving DecidableEq, Repr

/-- A parsed `when: "<ref> <op> <literal>"`. -/
structure WhenExpr where
  target : WhenTarget
  op : WhenOp
  literal : Json
  deriving Repr

/-- A step as the file has it. -/
structure EnsembleStepRaw where
  name : String
  model : String
  version : Option String := none
  inputs : Option (IndexMap String String) := none
  stream : Bool := false
  forwardHeaders : List String := []
  passthrough : Bool := false
  params : IndexMap String Json := IndexMap.empty
  timeoutSecs : Option F64 := none
  onError : Option OnErrorKind := none
  retries : Option ℕ := none
  outputs : Option (IndexMap String StepOutputDecl) := none
  when : Option String := none

/-- A step of a validated plan. -/
structure EnsembleStep where
  name : String
  model : String
  version : Option String
  inputs : IndexMap String String
  stream : Bool
  forwardHeaders : List String
  passthrough : Bool
  params : IndexMap String Json
  timeoutSecs : Option F64
  onError : OnErrorKind
  retries : ℕ
  outputsDecl : Option (IndexMap String StepOutputDecl)
  when : Option WhenExpr

/-- How the inputs of a step are put together, when that is known before any request. -/
inductive InputMode where
  | groupJson
  | binaryPassThrough
  deriving DecidableEq, Repr

/-- A linear run of streaming steps, each consumed whole by the next. -/
structure Chain where
  nodes : List ℕ
  deriving DecidableEq, Repr

/-- A validated, layered DAG. The lists indexed by step are aligned with `steps`. The file path and
its modification time belong to the cache and are left out. -/
structure EnsemblePlan where
  steps : List EnsembleStep
  layers : List (List ℕ)
  outputStep : ℕ
  outputField : Option String
  chains : List Chain
  inputsDecl : Option (IndexMap String InputDecl)
  inputModes : List (Option InputMode)
  conditionalRefs : List (List String)
  stepDepKeys : List (List String)
  stepRawEligible : List Bool
  outputs : Option (IndexMap String String)

/-- The mode of a step, `none` for dynamic dispatch. -/
def EnsemblePlan.inputMode (plan : EnsemblePlan) (idx : ℕ) : Option InputMode :=
  (plan.inputModes[idx]?).join

/-- What a configuration file holds: one DAG, or a container of named ones with the path of the
request field that selects among them. The container's own plan is empty and has no other field
that is read. -/
inductive PlanFile where
  | single (plan : EnsemblePlan)
  | dags (sets : IndexMap String EnsemblePlan) (dagSelector : Option (List String))

/-! ### Grammar -/

/-- The text has a dot. -/
def hasDot (s : String) : Bool := s.toList.contains '.'

/-- The text before the first dot: `split('.').next()`. -/
def firstSegment (s : String) : String := String.ofList (s.toList.takeWhile (· ≠ '.'))

/-- The text after the first dot, if there is one. -/
def afterFirstSegment (s : String) : Option String :=
  match s.toList.dropWhile (· ≠ '.') with
  | [] => none
  | _ :: cs => some (String.ofList cs)

/-- `split('.')`, with the segment read so far in reverse. -/
def splitDotsAux : List Char → List Char → List String
  | acc, [] => [String.ofList acc.reverse]
  | acc, c :: cs => if c = '.' then String.ofList acc.reverse :: splitDotsAux [] cs
    else splitDotsAux (c :: acc) cs

/-- `split('.')`. -/
def splitDots (s : String) : List String := splitDotsAux [] s.toList

/-- `strip_prefix`. -/
def stripText (start s : String) : Option String :=
  if start.toList.isPrefixOf s.toList then some (String.ofList (s.toList.drop start.toList.length))
  else none

/-- The captures of `^\$(\w+)(?:\.(.+))?$`: the source, and what follows its dot. -/
def refCaptures (E : Externals) (s : String) : Option (String × Option String) :=
  match s.toList with
  | '$' :: cs =>
    let source := cs.takeWhile E.wordChar
    if source.isEmpty then none
    else match cs.dropWhile E.wordChar with
      | [] => some (String.ofList source, none)
      | '.' :: rest =>
        if rest.isEmpty || rest.contains '\n' then none
        else some (String.ofList source, some (String.ofList rest))
      | _ => none
  | _ => none

/-- The first character of an identifier. -/
def isIdentStart (c : Char) : Bool := c.isAlpha || c = '_'

/-- A further character of an identifier. -/
def isIdentChar (c : Char) : Bool := c.isAlphanum || c = '_'

/-- `^[A-Za-z_][A-Za-z0-9_]*$`. -/
def isIdent (s : String) : Bool :=
  match s.toList with
  | c :: cs => isIdentStart c && cs.all isIdentChar
  | [] => false

/-- `^\$(\.[A-Za-z_][A-Za-z0-9_]*)+$`. -/
def isJsonPath (s : String) : Bool :=
  match s.toList with
  | '$' :: '.' :: cs => (splitDots (String.ofList cs)).all isIdent
  | _ => false

/-- The operator at the head of a text, in the order the expression tries them. -/
def whenOp : List Char → Option (WhenOp × List Char)
  | '=' :: '=' :: cs => some (.eq, cs)
  | '!' :: '=' :: cs => some (.neq, cs)
  | 'c' :: 'o' :: 'n' :: 't' :: 'a' :: 'i' :: 'n' :: 's' :: cs => some (.contains, cs)
  | 'i' :: 'n' :: cs => some (.in, cs)
  | _ => none

/-- The captures of `^\$(\S+)\s+(==|!=|contains|in)\s*(.+)$`: target, operator, literal text. The
white space before the literal gives a character back when nothing else is left. -/
def whenCaptures (s : String) : Option (String × WhenOp × String) :=
  match s.toList with
  | '$' :: cs =>
    let target := cs.takeWhile (!isSpace ·)
    let gap := cs.dropWhile (!isSpace ·)
    if target.isEmpty || gap.isEmpty then none
    else (whenOp (gap.dropWhile isSpace)).bind fun (op, rest) =>
      let literal := match rest.dropWhile isSpace, rest.getLast? with
        | [], some c => [c]
        | cs, _ => cs
      if literal.isEmpty || literal.contains '\n' then none
      else some (String.ofList target, op, String.ofList literal)
  | _ => none

end Ensemble

end LiteServer
