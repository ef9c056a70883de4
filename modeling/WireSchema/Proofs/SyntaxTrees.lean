import WireSchema.Compile.Naming
import WireSchema.Rendering.Conversion

/-!
# Syntax trees of the conversion document

A function of a conversion document as a tree: what it declares in its head, and statements
that stand inside each other as the blocks of the function do.  A variable is declared by a
statement of its own kind, so that a tree tells which names belong to which block.  A call of
a generated function is a piece of its own, which says what it passes for the payload: an
encode function hands on the parameters it was given, an entry point passes variables that
it declares.

A tree has three readings: its text, the names it declares, and the calls it makes.

## Main results

* `CStatement.textAll_append`, `CStatement.textAll_map`: the text of statements in sequence.
* `CStatement.callsAll_append`, `CStatement.mem_callsAll_map`: the calls of statements in
  sequence.
* `Copy.text_tree`: the tree of a copy has its text.
-/

namespace WireSchema

/-! ## Calls -/

/-- What a call passes for the payload. -/
inductive CPayload where
  | nothing
  /-- The parameters of the function around the call. -/
  | parameters
  /-- Variables of the function around the call. -/
  | locals
  deriving DecidableEq

/-- A call of a generated function. -/
structure CCall where
  role : FunctionRole
  callee : String
  /-- The arguments before the payload. -/
  arguments : String
  payload : CPayload

/-- The call has arguments for the payload. -/
def CCall.PassesPayload (call : CCall) : Prop :=
  call.payload ≠ .nothing

/-- A piece of an expression. -/
inductive CPiece where
  | plain (text : String)
  | call (call : CCall)

/-! ## Trees -/

/-- A parameter or a variable. -/
structure CVariable where
  /-- The type, and whatever else stands before the name. -/
  type : String
  name : String
  deriving DecidableEq, Repr, Inhabited

/-- A statement. -/
inductive CStatement where
  | blank
  | declaration (declared : CVariable) (value : List CPiece)
  /-- An expression, or `break` or `return`. -/
  | simple (pieces : List CPiece)
  | labelled (label : String) (body : List CStatement)
  | block (head : String) (body : List CStatement)
  | choice (condition : String) (yes no : List CStatement)
  /-- A loop that counts from zero, and declares what it counts with. -/
  | loop (counter bound : String) (body : List CStatement)

/-- The definition of a function. -/
structure CTree where
  role : FunctionRole
  /-- What stands before the name. -/
  lead : String
  name : String
  parameters : List CVariable
  body : List CStatement
  /-- What stands after the body. -/
  trail : String

/-! ## Declarations -/

/-- What the statement declares for the block that it stands in. -/
def CStatement.declared? : CStatement → Option CVariable
  | declaration declared _ => some declared
  | _ => none

/-- What the body declares outside any inner block. -/
def CTree.variables (tree : CTree) : List CVariable :=
  tree.body.filterMap CStatement.declared?

/-- The names of the outermost scope: the parameters and what the body declares outside any
inner block. -/
def CTree.scopeNames (tree : CTree) : List String :=
  tree.parameters.map CVariable.name ++ tree.variables.map CVariable.name

/-- The parameters of an encode function for the payload. -/
def payloadVariables : List CVariable :=
  [⟨"uint8_t *", "payload"⟩, ⟨"size_t ", "payloadSize"⟩, ⟨"uint16_t *", "vlaOffset"⟩]

/-- The function takes the payload, behind its other parameters. -/
def CTree.TakesPayload (tree : CTree) : Prop :=
  payloadVariables <:+ tree.parameters

/-- The function has variables for the payload, for its size and for the cursor. -/
def CTree.DeclaresPayload (tree : CTree) : Prop :=
  [⟨"uint8_t *", "payload"⟩, ⟨"size_t ", "payloadSize"⟩, ⟨"uint16_t ", "vlaOffset"⟩] ⊆
    tree.variables

/-! ## Calls in a tree -/

/-- The calls among pieces. -/
def CPiece.calls (pieces : List CPiece) : List CCall :=
  pieces.filterMap fun
    | .call made => some made
    | .plain _ => none

mutual

def CStatement.calls : CStatement → List CCall
  | .blank => []
  | .declaration _ value => CPiece.calls value
  | .simple pieces => CPiece.calls pieces
  | .labelled _ body => CStatement.callsAll body
  | .block _ body => CStatement.callsAll body
  | .choice _ yes no => CStatement.callsAll yes ++ CStatement.callsAll no
  | .loop _ _ body => CStatement.callsAll body

/-- The calls of statements that follow each other, inner blocks included. -/
def CStatement.callsAll : List CStatement → List CCall
  | [] => []
  | statement :: rest => statement.calls ++ CStatement.callsAll rest

end

/-- The calls in the body of the function. -/
def CTree.calls (tree : CTree) : List CCall :=
  CStatement.callsAll tree.body

namespace CStatement

variable {call : CCall}

@[simp]
theorem callsAll_append (front back : List CStatement) :
    callsAll (front ++ back) = callsAll front ++ callsAll back := by
  induction front with
  | nil => rfl
  | cons statement rest ih => simp [callsAll, ih]

@[simp]
theorem mem_callsAll_map {α : Type} {f : α → CStatement} {xs : List α} :
    call ∈ callsAll (xs.map f) ↔ ∃ x ∈ xs, call ∈ (f x).calls := by
  induction xs with
  | nil => simp [callsAll]
  | cons x rest ih => simp [callsAll, ih]

end CStatement

/-! ## Text -/

/-- The arguments that hand the payload on, in the order of the parameters. -/
def CPayload.text : CPayload → String
  | nothing => ""
  | parameters => payloadArguments
  | locals => ", payload, payloadSize, &vlaOffset"

def CCall.text (call : CCall) : String :=
  call.callee ++ "(" ++ call.arguments ++ call.payload.text ++ ")"

def CPiece.text : CPiece → String
  | plain text => text
  | call made => made.text

/-- The text of an expression. -/
def CPiece.textAll : List CPiece → String
  | [] => ""
  | piece :: rest => piece.text ++ CPiece.textAll rest

def CVariable.text (declared : CVariable) : String :=
  declared.type ++ declared.name

mutual

def CStatement.text (indent : String) : CStatement → String
  | .blank => "\n"
  | .declaration declared value =>
    indent ++ declared.text ++ " = " ++ CPiece.textAll value ++ ";\n"
  | .simple pieces => indent ++ CPiece.textAll pieces ++ ";\n"
  | .labelled label body => indent ++ label ++ ":\n" ++ CStatement.textAll (indent ++ "  ") body
  | .block head body =>
    indent ++ head ++ " " ++ openBrace ++ "\n" ++ CStatement.textAll (indent ++ "  ") body ++
      indent ++ closeBrace ++ "\n"
  | .choice condition yes no =>
    indent ++ "if (" ++ condition ++ ") " ++ openBrace ++ "\n" ++
      CStatement.textAll (indent ++ "  ") yes ++ indent ++ closeBrace ++ " else " ++ openBrace ++
      "\n" ++ CStatement.textAll (indent ++ "  ") no ++ indent ++ closeBrace ++ "\n"
  | .loop counter bound body =>
    indent ++ "for (size_t " ++ counter ++ " = 0; " ++ counter ++ " < " ++ bound ++ "; " ++
      counter ++ "++) " ++ openBrace ++ "\n" ++ CStatement.textAll (indent ++ "  ") body ++
      indent ++ closeBrace ++ "\n"

/-- The text of statements that follow each other. -/
def CStatement.textAll (indent : String) : List CStatement → String
  | [] => ""
  | statement :: rest => statement.text indent ++ CStatement.textAll indent rest

end

/-- The text of a list of parameters, each on a line of its own. -/
def parameterLines : List CVariable → String
  | [] => ""
  | [last] => "\n    " ++ last.text
  | declared :: rest => "\n    " ++ declared.text ++ "," ++ parameterLines rest

def CTree.text (tree : CTree) : String :=
  tree.lead ++ tree.name ++ "(" ++ parameterLines tree.parameters ++ ") " ++ openBrace ++ "\n" ++
    CStatement.textAll "  " tree.body ++ closeBrace ++ "\n" ++ tree.trail

theorem CCall.text_eq (call : CCall) :
    call.text = call.callee ++ "(" ++ call.arguments ++ call.payload.text ++ ")" := rfl

namespace CPiece

theorem textAll_plain (text : String) : textAll [.plain text] = text :=
  String.append_empty

theorem textAll_call (made : CCall) : textAll [.call made] = made.text :=
  String.append_empty

end CPiece

namespace CStatement

section Equations

variable (indent : String)

theorem text_blank : blank.text indent = "\n" := rfl

theorem text_declaration (declared : CVariable) (value : List CPiece) :
    (declaration declared value).text indent =
      indent ++ declared.text ++ " = " ++ CPiece.textAll value ++ ";\n" := rfl

theorem text_simple (pieces : List CPiece) :
    (simple pieces).text indent = indent ++ CPiece.textAll pieces ++ ";\n" := rfl

theorem text_labelled (label : String) (body : List CStatement) :
    (labelled label body).text indent =
      indent ++ label ++ ":\n" ++ textAll (indent ++ "  ") body := rfl

theorem text_block (head : String) (body : List CStatement) :
    (block head body).text indent =
      indent ++ head ++ " " ++ openBrace ++ "\n" ++ textAll (indent ++ "  ") body ++
        indent ++ closeBrace ++ "\n" := rfl

theorem text_choice (condition : String) (yes no : List CStatement) :
    (choice condition yes no).text indent =
      indent ++ "if (" ++ condition ++ ") " ++ openBrace ++ "\n" ++ textAll (indent ++ "  ") yes ++
        indent ++ closeBrace ++ " else " ++ openBrace ++ "\n" ++ textAll (indent ++ "  ") no ++
        indent ++ closeBrace ++ "\n" := rfl

theorem text_loop (counter bound : String) (body : List CStatement) :
    (loop counter bound body).text indent =
      indent ++ "for (size_t " ++ counter ++ " = 0; " ++ counter ++ " < " ++ bound ++ "; " ++
        counter ++ "++) " ++ openBrace ++ "\n" ++ textAll (indent ++ "  ") body ++
        indent ++ closeBrace ++ "\n" := rfl

theorem textAll_nil : textAll indent [] = "" := rfl

theorem textAll_cons (statement : CStatement) (rest : List CStatement) :
    textAll indent (statement :: rest) = statement.text indent ++ textAll indent rest := rfl

end Equations

@[simp]
theorem textAll_append (indent : String) (front back : List CStatement) :
    textAll indent (front ++ back) = textAll indent front ++ textAll indent back := by
  induction front with
  | nil => simp [textAll_nil]
  | cons statement rest ih => simp [textAll_cons, ih, String.append_assoc]

theorem textAll_map {α : Type} (indent : String) (f : α → CStatement) (xs : List α) :
    textAll indent (xs.map f) = String.join (xs.map fun x => (f x).text indent) := by
  induction xs with
  | nil => simp [textAll_nil]
  | cons x rest ih => simp [textAll_cons, ih]

end CStatement

/-! ## Copies -/

/-- The statement that copies `source` to `target`. -/
def Copy.tree (source target : String) : Copy → CStatement
  | scalar => .simple [.plain (target ++ " = " ++ source)]
  | array _ =>
    .simple [.plain ("memcpy(" ++ target ++ ", " ++ source ++ ", sizeof(" ++ target ++ "))")]
  | record _ function varLen =>
    .simple [.call ⟨.convert, function, "&" ++ source ++ ", &" ++ target,
      if varLen then .parameters else .nothing⟩]
  | recordArray _ function length =>
    .loop "j" (Text.natural length)
      [.simple
        [.call ⟨.convert, function, "&" ++ source ++ "[j], &" ++ target ++ "[j]", .nothing⟩]]

theorem Copy.text_tree (source target indent : String) (copy : Copy) :
    (copy.tree source target).text indent = copy.statement source target indent := by
  have hPieces :
      "(&" = "(" ++ "&" ∧ "));\n" = "))" ++ ";\n" ∧ ");\n" = ")" ++ ";\n" ∧
      "[j]);\n" = "[j]" ++ ")" ++ ";\n" ∧
      "for (size_t j = 0; j < " = "for (size_t " ++ "j" ++ " = 0; " ++ "j" ++ " < " ∧
      "; j++) " = "; " ++ "j" ++ "++) " := by simp
  cases copy with
  | scalar =>
      show _ = indent ++ target ++ " = " ++ source ++ ";\n"
      simp only [Copy.tree, CStatement.text_simple, CPiece.textAll_plain, String.append_assoc]
  | array length =>
      show _ = indent ++ "memcpy(" ++ target ++ ", " ++ source ++ ", sizeof(" ++ target ++ "));\n"
      simp only [Copy.tree, CStatement.text_simple, CPiece.textAll_plain, hPieces,
        String.append_assoc]
  | record name function varLen =>
      have hPayload :
          (if varLen then CPayload.parameters else CPayload.nothing).text =
            if varLen then payloadArguments else "" := by
        cases varLen <;> rfl
      show _ = indent ++ function ++ "(&" ++ source ++ ", &" ++ target ++
        (if varLen then payloadArguments else "") ++ ");\n"
      simp only [Copy.tree, CStatement.text_simple, CPiece.textAll_call, CCall.text_eq, hPayload,
        hPieces, String.append_assoc]
  | recordArray name function length =>
      show _ = indent ++ "for (size_t j = 0; j < " ++ Text.natural length ++ "; j++) " ++
        openBrace ++ "\n" ++ indent ++ "  " ++ function ++ "(&" ++ source ++ "[j], &" ++ target ++
        "[j]);\n" ++ indent ++ closeBrace ++ "\n"
      simp only [Copy.tree, CStatement.text_loop, CStatement.text_simple, CStatement.textAll_cons,
        CStatement.textAll_nil, CPiece.textAll_call, CCall.text_eq, CPayload.text, hPieces,
        String.append_assoc, String.append_empty]

end WireSchema
