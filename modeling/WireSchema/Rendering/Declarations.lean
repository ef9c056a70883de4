import WireSchema.Rendering.Document

/-!
# The declarations document

The header of a service, `<service>_types.h`: an include guard, includes, the packed
types in order, and the prototypes of the entry points with their documentation.
-/

namespace WireSchema

/-- The documentation of an entry point. -/
def entryDocumentation : String :=
  "/**\n" ++
  " * Converts from given CHRE structure to serialized CHPP type\n" ++
  " *\n" ++
  " * @param in Fully-formed CHRE structure\n" ++
  " * @param out Upon success, will point to a buffer allocated with chppMalloc().\n" ++
  " * It is the responsibility of the caller to free this buffer via chppFree().\n" ++
  " * @param outSize Upon success, will be set to the size of the output buffer,\n" ++
  " * in bytes\n" ++
  " * @return true on success, false if memory allocation failed\n" ++
  " */\n"

/-- The macro that guards the document against double inclusion. -/
def Program.guard (program : Program) (settings : Settings) : String :=
  Text.allUpper settings.typePrefix ++ "_" ++ Text.screaming program.service ++ "_TYPES_H_"

/-- The project's own includes, sorted and each once. -/
def Program.projectIncludes (program : Program) (settings : Settings) : List String :=
  ((settings.headerIncludes ++ program.includes).mergeSort fun a b => decide (a ≤ b)).eraseReps

/-- The includes of the document. -/
def Program.includeText (program : Program) (settings : Settings) : String :=
  "#include <stdbool.h>\n#include <stddef.h>\n#include <stdint.h>\n\n" ++
  String.join ((program.projectIncludes settings).map fun path => "#include \"" ++ path ++ "\"\n") ++
  "\n"

/-- The line that declares a member. -/
def PackedMember.line (settings : Settings) (member : PackedMember) : String :=
  let type :=
    match member.placement with
    | .value representation => representation.spelling
    | .descriptor _ => settings.offsetType
  let length :=
    match member.arrayLength with
    | none => ""
    | some length => "[" ++ Text.natural length ++ "]"
  let comment :=
    match member.comment with
    | none => ""
    | some comment => "  // " ++ comment
  "  " ++ type ++ " " ++ member.name ++ length ++ ";" ++ comment ++ "\n"

/-- The declaration of a packed type. -/
def PackedType.declarationText (settings : Settings) (type : PackedType) : String :=
  let reference :=
    if type.isAnonymous then ""
    else "//! See " ++ openBrace ++ "@link " ++ type.source ++ closeBrace ++ " for details\n"
  reference ++
  type.target ++ " " ++ openBrace ++ "\n" ++
  String.join (type.members.map (PackedMember.line settings)) ++
  closeBrace ++ " CHPP_PACKED_ATTR;\n\n"

/-- The declarations document of a program. -/
def Program.declarationsDocument (program : Program) (settings : Settings) : Document :=
  let guard := program.guard settings
  { name := program.service ++ "_types.h"
    fragments :=
      settings.licenseText?.toList ++
      [ "#ifndef " ++ guard ++ "\n#define " ++ guard ++ "\n\n"
      , settings.notice
      , program.includeText settings
      , "#ifdef __cplusplus\nextern \"C\" " ++ openBrace ++ "\n#endif\n\n"
      , "CHPP_PACKED_START\n\n" ] ++
      program.types.map (PackedType.declarationText settings) ++
      [ "CHPP_PACKED_END\n\n"
      , "// Encoding functions (CHRE --> CHPP)\n\n" ] ++
      program.entryPoints.map (fun entry => entryDocumentation ++ entry.signature ++ ";\n\n") ++
      [ "#ifdef __cplusplus\n" ++ closeBrace ++ "\n#endif\n\n"
      , "#endif  // " ++ guard ++ "\n" ] }

end WireSchema
