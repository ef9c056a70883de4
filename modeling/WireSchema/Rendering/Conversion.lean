import WireSchema.Rendering.Document

/-!
# The conversion document

The C source of a service, `<service>_convert.c`: its size functions, encode functions
and entry points.  A function takes the source value by pointer; `in->field` is read and
`out->field` written.  Functions of variable-length types also take the payload, its
size, and the offset up to which it is taken.
-/

namespace WireSchema

/-- The parameters of an encode function that takes the payload. -/
def payloadParameters : String :=
  ",\n    uint8_t *payload,\n    size_t payloadSize,\n    uint16_t *vlaOffset"

/-- The arguments that pass the payload on. -/
def payloadArguments : String :=
  ", payload, payloadSize, vlaOffset"

/-- The statement for a term of a size function. -/
def SizeTerm.statement (parameter : String) : SizeTerm → String
  | varLen _ lengthField element =>
    "  encodedSize += " ++ parameter ++ "->" ++ lengthField ++ " * sizeof(" ++ element.spelling ++
      ");\n"
  | nested field _ target function =>
    "  encodedSize += " ++ function ++ "(&" ++ parameter ++ "->" ++ field ++ ") - sizeof(" ++
      target ++ ");\n"

/-- The text of a size function. -/
def SizeFunction.text (f : SizeFunction) : String :=
  "//! @return number of bytes required to represent the given\n//! " ++ f.source ++ " as " ++
    f.target ++ "\n" ++
  "static size_t " ++ f.function ++ "(\n    const " ++ sourceType f.source ++ " *" ++
    f.parameter ++ ") " ++ openBrace ++ "\n" ++
  "  size_t encodedSize = sizeof(" ++ f.target ++ ");\n" ++
  String.join (f.terms.map (SizeTerm.statement f.parameter)) ++
  "  return encodedSize;\n" ++ closeBrace ++ "\n\n"

/-- The statement that copies `source` to `target`. -/
def Copy.statement (source target indent : String) : Copy → String
  | scalar => indent ++ target ++ " = " ++ source ++ ";\n"
  | array _ => indent ++ "memcpy(" ++ target ++ ", " ++ source ++ ", sizeof(" ++ target ++ "));\n"
  | record _ function varLen =>
    let arguments := if varLen then payloadArguments else ""
    indent ++ function ++ "(&" ++ source ++ ", &" ++ target ++ arguments ++ ");\n"
  | recordArray _ function length =>
    indent ++ "for (size_t j = 0; j < " ++ Text.natural length ++ "; j++) " ++ openBrace ++ "\n" ++
    indent ++ "  " ++ function ++ "(&" ++ source ++ "[j], &" ++ target ++ "[j]);\n" ++
    indent ++ closeBrace ++ "\n"

/-- The statements that store a variable-length array. -/
def varLenStatements (field lengthField type : String) (copy : Copy) : String :=
  "  " ++ type ++ " *" ++ field ++ " = (" ++ type ++ " *) &payload[*vlaOffset];\n" ++
  "  out->" ++ field ++ ".length = in->" ++ lengthField ++ " * sizeof(" ++ type ++ ");\n" ++
  "  if (out->" ++ field ++ ".length > 0 &&\n      *vlaOffset + out->" ++ field ++
    ".length <= payloadSize) " ++ openBrace ++ "\n" ++
  "    out->" ++ field ++ ".offset = *vlaOffset;\n" ++
  "    *vlaOffset += out->" ++ field ++ ".length;\n" ++
  "    for (size_t i = 0; i < in->" ++ lengthField ++ "; i++) " ++ openBrace ++ "\n" ++
  copy.statement ("in->" ++ field ++ "[i]") (field ++ "[i]") "      " ++
  "    " ++ closeBrace ++ "\n  " ++ closeBrace ++ " else " ++ openBrace ++ "\n" ++
  "    out->" ++ field ++ ".offset = 0;\n" ++
  "    out->" ++ field ++ ".length = 0;\n" ++
  "  " ++ closeBrace ++ "\n"

/-- The case of a union's switch for one arm. -/
def UnionArm.caseText (field : String) (arm : UnionArm) : String :=
  "    case " ++ arm.value.toText ++ ":\n" ++
  arm.copy.statement ("in->" ++ field ++ "." ++ arm.member) ("out->" ++ field ++ "." ++ arm.member)
    "      " ++
  "      break;\n"

/-- The statements that encode a discriminated union. -/
def unionStatements (field discriminator : String) (arms : List UnionArm) : String :=
  "  memset(&out->" ++ field ++ ", 0, sizeof(out->" ++ field ++ "));\n" ++
  "  switch (in->" ++ discriminator ++ ") " ++ openBrace ++ "\n" ++
  String.join (arms.map (UnionArm.caseText field)) ++
  "    default:\n      CHPP_ASSERT(false);\n  " ++ closeBrace ++ "\n"

/-- The statements of a step. -/
def Step.text : Step → String
  | fixedScalar field value => "  out->" ++ field ++ " = " ++ value.toText ++ ";\n"
  | fixedFill field value =>
    "  memset(&out->" ++ field ++ ", " ++ value.toText ++ ", sizeof(out->" ++ field ++ "));\n"
  | assign field copy => copy.statement ("in->" ++ field) ("out->" ++ field) "  "
  | varLen field lengthField element copy =>
    varLenStatements field lengthField element.spelling copy
  | union field _ discriminator arms => unionStatements field discriminator arms

/-- A text of more than one line is a block. -/
def isBlock (text : String) : Bool :=
  1 < text.toList.count '\n'

/-- The texts of steps, with a blank line on either side of a block.  `afterBlock?` tells
of what stands before, if anything does. -/
def spaceBlocks (afterBlock? : Option Bool) : List String → String
  | [] => ""
  | text :: rest =>
    let blank := afterBlock?.any fun afterBlock => afterBlock || isBlock text
    (if blank then "\n" else "") ++ text ++ spaceBlocks (some (isBlock text)) rest

/-- The text of an encode function. -/
def EncodeFunction.text (f : EncodeFunction) : String :=
  "static void " ++ f.function ++ "(\n" ++
  "    const " ++ sourceType f.source ++ " *in,\n" ++
  "    " ++ f.target ++ " *out" ++ (if f.varLen then payloadParameters else "") ++
  ") " ++ openBrace ++ "\n" ++
  spaceBlocks none (f.steps.map Step.text) ++
  closeBrace ++ "\n\n"

/-- The size that an entry point allocates, as an expression. -/
def EntryPoint.sizeExpression (entry : EntryPoint) : String :=
  match entry.size with
  | .static => "sizeof(" ++ entry.target ++ ")"
  | .dynamic function => function ++ "(in)"

/-- The statements that call the encode function. -/
def EntryPoint.encodeStatements (entry : EntryPoint) : String :=
  if entry.varLen then
    "  uint8_t *payload = (uint8_t *) encoded;\n" ++
    "  uint16_t vlaOffset = sizeof(" ++ entry.target ++ ");\n" ++
    "  " ++ entry.encoder ++ "(in, encoded, payload, payloadSize, &vlaOffset);\n\n"
  else "  " ++ entry.encoder ++ "(in, encoded);\n\n"

/-- The text of an entry point. -/
def EntryPoint.text (entry : EntryPoint) : String :=
  entry.signature ++ " " ++ openBrace ++ "\n" ++
  "  CHPP_NOT_NULL(out);\n  CHPP_NOT_NULL(outSize);\n\n" ++
  "  size_t payloadSize = " ++ entry.sizeExpression ++ ";\n" ++
  "  " ++ entry.target ++ " *encoded = chppMalloc(payloadSize);\n" ++
  "  if (encoded == NULL) " ++ openBrace ++ "\n    return false;\n  " ++ closeBrace ++ "\n\n" ++
  entry.encodeStatements ++
  "  *out = encoded;\n  *outSize = payloadSize;\n  return true;\n" ++ closeBrace ++ "\n"

/-- The entry points, each set off from the one before it by a blank line. -/
def entryPointTexts : List EntryPoint → List String
  | [] => []
  | entry :: rest => entry.text :: rest.map fun next => "\n" ++ next.text

/-- The conversion document of a program. -/
def Program.conversionDocument (program : Program) (settings : Settings) : Document :=
  { name := program.service ++ "_convert.c"
    fragments :=
      settings.licenseText?.toList.map (fun text => text ++ "\n") ++
      [ settings.notice
      , "#include \"chpp/macros.h\"\n#include \"chpp/memory.h\"\n#include \"chpp/services/" ++
          program.service ++ "_types.h\"\n\n" ++
          "#include <stddef.h>\n#include <stdint.h>\n#include <string.h>\n\n" ] ++
      program.sizeFunctions.map SizeFunction.text ++
      program.encodeFunctions.map EncodeFunction.text ++
      entryPointTexts program.entryPoints }

end WireSchema
