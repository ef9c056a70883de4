import WireSchema.Proofs.StoreStatements

/-!
# The conversion document as trees

The size functions, encode functions and entry points of a program, each as the syntax tree of
its definition.  The statements for a variable-length array are those that have a meaning of
their own.

## Main results

* `Step.text_tree`, `SizeTerm.text_tree`: the tree of a statement has its text.
* `SizeFunction.text_tree`, `EncodeFunction.text_tree`, `EntryPoint.text_tree`: the tree of a
  function has its text.
* `Program.fragments_trees`: the document is a preamble and the trees of the functions.
* `Program.of_mem_trees`: a tree is that of a size function, of an encode function or of an
  entry point.
-/

namespace WireSchema

/-! ## Statements -/

/-- The case of a union's switch for one arm. -/
def UnionArm.tree (field : String) (arm : UnionArm) : CStatement :=
  .labelled ("case " ++ arm.value.toText)
    [ arm.copy.tree ("in->" ++ field ++ "." ++ arm.member) ("out->" ++ field ++ "." ++ arm.member)
    , .simple [.plain "break"] ]

theorem UnionArm.text_tree (field : String) (arm : UnionArm) :
    (arm.tree field).text "    " = arm.caseText field := by
  have hPieces :
      "    " ++ "  " = "      " ∧ "    case " = "    " ++ "case " ∧
      "      break;\n" = "      " ++ "break" ++ ";\n" := by simp
  delta UnionArm.tree UnionArm.caseText
  simp only [CStatement.text_labelled, CStatement.text_simple, CStatement.textAll_cons,
    CStatement.textAll_nil, CPiece.textAll_plain, hPieces, Copy.text_tree, String.append_assoc,
    String.append_empty]

/-- The statements that encode a discriminated union. -/
def unionTree (field discriminator : String) (arms : List UnionArm) : List CStatement :=
  [ .simple [.plain ("memset(&out->" ++ field ++ ", 0, sizeof(out->" ++ field ++ "))")]
  , .block ("switch (in->" ++ discriminator ++ ")")
      (arms.map (UnionArm.tree field) ++
        [.labelled "default" [.simple [.plain "CHPP_ASSERT(false)"]]]) ]

theorem text_unionTree (field discriminator : String) (arms : List UnionArm) :
    CStatement.textAll "  " (unionTree field discriminator arms) =
      unionStatements field discriminator arms := by
  have hIndents : "  " ++ "  " = "    " ∧ "    " ++ "  " = "      " := by simp
  have hPieces :
      "  memset(&out->" = "  " ++ "memset(&out->" ∧ "));\n" = "))" ++ ";\n" ∧
      "  switch (in->" = "  " ++ "switch (in->" ∧ ") " = ")" ++ " " ∧
      "    default:\n      CHPP_ASSERT(false);\n  " =
        "    " ++ "default" ++ ":\n" ++ "      " ++ "CHPP_ASSERT(false)" ++ ";\n" ++ "  " := by simp
  delta unionTree unionStatements
  simp only [CStatement.text_simple, CStatement.text_block, CStatement.text_labelled,
    CStatement.textAll_cons, CStatement.textAll_nil, CStatement.textAll_append,
    CStatement.textAll_map, CPiece.textAll_plain, UnionArm.text_tree, hIndents, hPieces,
    String.append_assoc, String.append_empty]

/-- The statements of a step. -/
def Step.tree : Step → List CStatement
  | fixedScalar field value => [.simple [.plain ("out->" ++ field ++ " = " ++ value.toText)]]
  | fixedFill field value =>
    [ .simple [.plain ("memset(&out->" ++ field ++ ", " ++ value.toText ++ ", sizeof(out->" ++
        field ++ "))")] ]
  | assign field copy => [copy.tree ("in->" ++ field) ("out->" ++ field)]
  | varLen field lengthField element copy =>
    CStmt.trees ⟨field, lengthField, element.spelling, copy⟩ storeStatements
  | union field _ discriminator arms => unionTree field discriminator arms

theorem Step.text_tree (step : Step) : CStatement.textAll "  " step.tree = step.text := by
  have hPieces :
      "  out->" = "  " ++ "out->" ∧ "));\n" = "))" ++ ";\n" ∧
      "  memset(&out->" = "  " ++ "memset(&out->" := by simp
  cases step with
  | fixedScalar field value =>
      show _ = "  out->" ++ field ++ " = " ++ value.toText ++ ";\n"
      simp only [Step.tree, CStatement.text_simple, CStatement.textAll_cons, CStatement.textAll_nil,
        CPiece.textAll_plain, hPieces, String.append_assoc, String.append_empty]
  | fixedFill field value =>
      show _ = "  memset(&out->" ++ field ++ ", " ++ value.toText ++ ", sizeof(out->" ++ field ++
        "));\n"
      simp only [Step.tree, CStatement.text_simple, CStatement.textAll_cons, CStatement.textAll_nil,
        CPiece.textAll_plain, hPieces, String.append_assoc, String.append_empty]
  | assign field copy =>
      show _ = copy.statement ("in->" ++ field) ("out->" ++ field) "  "
      simp only [Step.tree, CStatement.textAll_cons, CStatement.textAll_nil, Copy.text_tree,
        String.append_empty]
  | varLen field lengthField element copy => exact textAll_storeStatements _
  | union field record discriminator arms => exact text_unionTree _ _ arms

/-- A blank line, if there is to be one. -/
def blankLine (blank : Bool) : List CStatement :=
  if blank then [.blank] else []

theorem text_blankLine (indent : String) (blank : Bool) :
    CStatement.textAll indent (blankLine blank) = if blank then "\n" else "" := by
  cases blank <;> rfl

@[simp]
theorem declared_blankLine (blank : Bool) :
    (blankLine blank).filterMap CStatement.declared? = [] := by
  cases blank <;> rfl

@[simp]
theorem callsAll_blankLine (blank : Bool) : CStatement.callsAll (blankLine blank) = [] := by
  cases blank <;> rfl

/-- The statements of steps, with a blank line on either side of a block. -/
def spacedTree (afterBlock? : Option Bool) : List Step → List CStatement
  | [] => []
  | step :: rest =>
    let blank := afterBlock?.any fun afterBlock => afterBlock || isBlock step.text
    blankLine blank ++ step.tree ++ spacedTree (some (isBlock step.text)) rest

theorem text_spacedTree (afterBlock? : Option Bool) (steps : List Step) :
    CStatement.textAll "  " (spacedTree afterBlock? steps) =
      spaceBlocks afterBlock? (steps.map Step.text) := by
  induction steps generalizing afterBlock? with
  | nil => rfl
  | cons step rest ih =>
      simp only [spacedTree, spaceBlocks, List.map_cons, CStatement.textAll_append, text_blankLine,
        Step.text_tree, ih]

/-- The statement for a term of a size function. -/
def SizeTerm.tree (parameter : String) : SizeTerm → CStatement
  | varLen _ lengthField element =>
    .simple [.plain ("encodedSize += " ++ parameter ++ "->" ++ lengthField ++ " * sizeof(" ++
      element.spelling ++ ")")]
  | nested field _ target function =>
    .simple
      [ .plain "encodedSize += "
      , .call ⟨.sizeOf, function, "&" ++ parameter ++ "->" ++ field, .nothing⟩
      , .plain (" - sizeof(" ++ target ++ ")") ]

theorem SizeTerm.text_tree (parameter : String) (term : SizeTerm) :
    (term.tree parameter).text "  " = term.statement parameter := by
  have hPieces :
      "  encodedSize += " = "  " ++ "encodedSize += " ∧ ");\n" = ")" ++ ";\n" ∧
      "(&" = "(" ++ "&" ∧ ") - sizeof(" = ")" ++ " - sizeof(" := by simp
  cases term with
  | varLen field lengthField element =>
      show _ = "  encodedSize += " ++ parameter ++ "->" ++ lengthField ++ " * sizeof(" ++
        element.spelling ++ ");\n"
      simp only [SizeTerm.tree, CStatement.text_simple, CPiece.textAll_plain, hPieces,
        String.append_assoc]
  | nested field source target function =>
      show _ = "  encodedSize += " ++ function ++ "(&" ++ parameter ++ "->" ++ field ++
        ") - sizeof(" ++ target ++ ");\n"
      simp only [SizeTerm.tree, CStatement.text_simple, CPiece.textAll, CPiece.text, CCall.text_eq,
        CPayload.text, hPieces, String.append_assoc, String.append_empty]

/-! ## Functions -/

/-- The tree of a size function. -/
def SizeFunction.tree (f : SizeFunction) : CTree where
  role := .sizeOf
  lead :=
    "//! @return number of bytes required to represent the given\n//! " ++ f.source ++ " as " ++
      f.target ++ "\n" ++ "static size_t "
  name := f.function
  parameters := [⟨"const " ++ sourceType f.source ++ " *", f.parameter⟩]
  body :=
    .declaration ⟨"size_t ", "encodedSize"⟩ [.plain ("sizeof(" ++ f.target ++ ")")] ::
      f.terms.map (SizeTerm.tree f.parameter) ++ [.simple [.plain "return encodedSize"]]
  trail := "\n"

/-- The tree of an encode function. -/
def EncodeFunction.tree (f : EncodeFunction) : CTree where
  role := .convert
  lead := "static void "
  name := f.function
  parameters :=
    ⟨"const " ++ sourceType f.source ++ " *", "in"⟩ :: ⟨f.target ++ " *", "out"⟩ ::
      if f.varLen then payloadVariables else []
  body := spacedTree none f.steps
  trail := "\n"

/-- The size that an entry point allocates, as an expression. -/
def EntryPoint.sizeTree (entry : EntryPoint) : List CPiece :=
  match entry.size with
  | .static => [.plain ("sizeof(" ++ entry.target ++ ")")]
  | .dynamic function => [.call ⟨.sizeOf, function, "in", .nothing⟩]

/-- The statements that call the encode function. -/
def EntryPoint.encodeTree (entry : EntryPoint) : List CStatement :=
  if entry.varLen then
    [ .declaration ⟨"uint8_t *", "payload"⟩ [.plain "(uint8_t *) encoded"]
    , .declaration ⟨"uint16_t ", "vlaOffset"⟩ [.plain ("sizeof(" ++ entry.target ++ ")")]
    , .simple [.call ⟨.convert, entry.encoder, "in, encoded", .locals⟩] ]
  else [.simple [.call ⟨.convert, entry.encoder, "in, encoded", .nothing⟩]]

/-- The tree of an entry point; `separator` sets it off from what stands before. -/
def EntryPoint.tree (separator : String) (entry : EntryPoint) : CTree where
  role := .allocate
  lead := separator ++ "bool "
  name := entry.function
  parameters :=
    [ ⟨"const " ++ sourceType entry.source ++ " *", "in"⟩, ⟨entry.target ++ " **", "out"⟩
    , ⟨"size_t *", "outSize"⟩ ]
  body :=
    [ .simple [.plain "CHPP_NOT_NULL(out)"], .simple [.plain "CHPP_NOT_NULL(outSize)"], .blank
    , .declaration ⟨"size_t ", "payloadSize"⟩ entry.sizeTree
    , .declaration ⟨entry.target ++ " *", "encoded"⟩ [.plain "chppMalloc(payloadSize)"]
    , .block "if (encoded == NULL)" [.simple [.plain "return false"]], .blank ] ++
    entry.encodeTree ++
    [ .blank, .simple [.plain "*out = encoded"], .simple [.plain "*outSize = payloadSize"]
    , .simple [.plain "return true"] ]
  trail := ""

theorem SizeFunction.text_tree (f : SizeFunction) : f.tree.text = f.text := by
  have hPieces :
      "(\n    const " = "(" ++ "\n    " ++ "const " ∧
      "  size_t encodedSize = sizeof(" =
        "  " ++ "size_t " ++ "encodedSize" ++ " = " ++ "sizeof(" ∧
      "  return encodedSize;\n" = "  " ++ "return encodedSize" ++ ";\n" ∧
      ");\n" = ")" ++ ";\n" ∧ "\n\n" = "\n" ++ "\n" := by simp
  delta SizeFunction.tree SizeFunction.text CTree.text
  simp only [List.cons_append, CStatement.textAll_cons, CStatement.textAll_append,
    CStatement.textAll_map, CStatement.textAll_nil, CStatement.text_declaration,
    CStatement.text_simple, CPiece.textAll_plain, SizeTerm.text_tree, CVariable.text,
    parameterLines, hPieces, String.append_assoc, String.append_empty]

theorem EncodeFunction.text_tree (f : EncodeFunction) : f.tree.text = f.text := by
  have hPieces :
      "(\n" = "(" ++ "\n" ∧ "\n    " = "\n" ++ "    " ∧ "    const " = "    " ++ "const " ∧
      " *in,\n" = " *" ++ "in" ++ "," ++ "\n" ∧ " *out" = " *" ++ "out" ∧
      "\n\n" = "\n" ++ "\n" := by simp
  have hPayload : payloadParameters =
      "," ++ ("\n" ++ "    ") ++ "uint8_t *" ++ "payload" ++ "," ++ ("\n" ++ "    ") ++ "size_t " ++
        "payloadSize" ++ "," ++ ("\n" ++ "    ") ++ "uint16_t *" ++ "vlaOffset" := by
    simp [payloadParameters]
  delta EncodeFunction.tree EncodeFunction.text CTree.text payloadVariables
  cases f.varLen <;>
    simp only [if_true, if_false, Bool.false_eq_true, parameterLines, CVariable.text,
      text_spacedTree, hPayload, hPieces, String.append_assoc, String.append_empty]

/-! ## Entry points -/

theorem EntryPoint.text_sizeTree (entry : EntryPoint) :
    CPiece.textAll entry.sizeTree = entry.sizeExpression := by
  have hPieces : "(in)" = "(" ++ "in" ++ ")" := by simp
  unfold EntryPoint.sizeTree EntryPoint.sizeExpression
  cases entry.size with
  | static => exact CPiece.textAll_plain _
  | dynamic function =>
      simp only [CPiece.textAll_call, CCall.text_eq, CPayload.text, hPieces, String.append_assoc,
        String.append_empty]

theorem EntryPoint.text_encodeTree (entry : EntryPoint) :
    CStatement.textAll "  " entry.encodeTree ++ "\n" = entry.encodeStatements := by
  have hPieces :
      "  uint8_t *payload = (uint8_t *) encoded;\n" =
        "  " ++ "uint8_t *" ++ "payload" ++ " = " ++ "(uint8_t *) encoded" ++ ";\n" ∧
      "  uint16_t vlaOffset = sizeof(" =
        "  " ++ "uint16_t " ++ "vlaOffset" ++ " = " ++ "sizeof(" ∧
      ");\n" = ")" ++ ";\n" ∧
      "(in, encoded);\n\n" = "(" ++ "in, encoded" ++ ")" ++ ";\n" ++ "\n" ∧
      "(in, encoded, payload, payloadSize, &vlaOffset);\n\n" =
        "(" ++ "in, encoded" ++ ", payload, payloadSize, &vlaOffset" ++ ")" ++ ";\n" ++ "\n" := by simp
  delta EntryPoint.encodeTree EntryPoint.encodeStatements
  cases entry.varLen <;>
    simp only [if_true, if_false, Bool.false_eq_true, CStatement.textAll_cons,
      CStatement.textAll_nil, CStatement.text_declaration, CStatement.text_simple,
      CPiece.textAll_plain, CPiece.textAll_call, CCall.text_eq, CPayload.text, CVariable.text,
      hPieces, String.append_assoc, String.append_empty]

theorem EntryPoint.text_tree (separator : String) (entry : EntryPoint) :
    (entry.tree separator).text = separator ++ entry.text := by
  have hSignature :
      "(\n" = "(" ++ "\n" ∧ "\n    " = "\n" ++ "    " ∧ "    const " = "    " ++ "const " ∧
      " *in,\n" = " *" ++ "in" ++ "," ++ "\n" ∧
      " **out,\n" = " **" ++ "out" ++ "," ++ "\n" ∧
      "    size_t *outSize)" = "    " ++ "size_t *" ++ "outSize" ++ ")" := by simp
  have hLead :
      "  CHPP_NOT_NULL(out);\n  CHPP_NOT_NULL(outSize);\n\n" =
        "  " ++ "CHPP_NOT_NULL(out)" ++ ";\n" ++ "  " ++ "CHPP_NOT_NULL(outSize)" ++ ";\n" ++
          "\n" ∧
      "  size_t payloadSize = " = "  " ++ "size_t " ++ "payloadSize" ++ " = " ∧
      " *encoded = chppMalloc(payloadSize);\n" =
        " *" ++ "encoded" ++ " = " ++ "chppMalloc(payloadSize)" ++ ";\n" := by simp
  have hTail :
      "  if (encoded == NULL) " = "  " ++ "if (encoded == NULL)" ++ " " ∧
      "\n    return false;\n  " = "\n" ++ "    " ++ "return false" ++ ";\n" ++ "  " ∧
      "\n\n" = "\n" ++ "\n" ∧ ") " = ")" ++ " " ∧
      "  *out = encoded;\n  *outSize = payloadSize;\n  return true;\n" =
        "  " ++ "*out = encoded" ++ ";\n" ++ "  " ++ "*outSize = payloadSize" ++ ";\n" ++
        "  " ++ "return true" ++ ";\n" := by simp
  have hIndent : "  " ++ "  " = "    " := by simp
  delta EntryPoint.tree EntryPoint.text EntryPoint.signature CTree.text
  rw [← EntryPoint.text_encodeTree, ← EntryPoint.text_sizeTree]
  simp only [CStatement.textAll_append, CStatement.textAll_cons, CStatement.textAll_nil,
    CStatement.text_declaration, CStatement.text_simple, CStatement.text_block,
    CStatement.text_blank, CPiece.textAll_plain, CVariable.text, parameterLines, hSignature, hLead,
    hTail, hIndent, String.append_assoc, String.append_empty]

/-! ## The document -/

/-- The trees of entry points, each set off from the one before it. -/
def entryTrees : List EntryPoint → List CTree
  | [] => []
  | entry :: rest => entry.tree "" :: rest.map (EntryPoint.tree "\n")

theorem text_entryTrees (points : List EntryPoint) :
    (entryTrees points).map CTree.text = entryPointTexts points := by
  cases points with
  | nil => rfl
  | cons entry rest =>
      have hRest : CTree.text ∘ EntryPoint.tree "\n" =
          fun next : EntryPoint => "\n" ++ next.text :=
        funext (EntryPoint.text_tree "\n")
      simp only [entryTrees, entryPointTexts, List.map_cons, List.map_map, hRest,
        EntryPoint.text_tree, String.empty_append]

/-- The functions of the conversion document, in its order. -/
def Program.trees (program : Program) : List CTree :=
  program.sizeFunctions.map SizeFunction.tree ++ program.encodeFunctions.map EncodeFunction.tree ++
    entryTrees program.entryPoints

/-- What the conversion document has before its functions. -/
def Program.preamble (program : Program) (settings : Settings) : List String :=
  settings.licenseText?.toList.map (fun text => text ++ "\n") ++
  [ settings.notice
  , "#include \"chpp/macros.h\"\n#include \"chpp/memory.h\"\n#include \"chpp/services/" ++
      program.service ++ "_types.h\"\n\n" ++
      "#include <stddef.h>\n#include <stdint.h>\n#include <string.h>\n\n" ]

/-- **The conversion document** is a preamble and the trees of the functions. -/
theorem Program.fragments_trees (program : Program) (settings : Settings) :
    (program.conversionDocument settings).fragments =
      program.preamble settings ++ program.trees.map CTree.text := by
  have hSizes : CTree.text ∘ SizeFunction.tree = SizeFunction.text :=
    funext SizeFunction.text_tree
  have hEncodes : CTree.text ∘ EncodeFunction.tree = EncodeFunction.text :=
    funext EncodeFunction.text_tree
  delta Program.conversionDocument Program.preamble Program.trees
  simp only [List.map_append, List.map_map, hSizes, hEncodes, text_entryTrees, List.append_assoc]

/-! ## Trees by role -/

theorem mem_entryTrees {points : List EntryPoint} {tree : CTree} (h : tree ∈ entryTrees points) :
    ∃ point ∈ points, ∃ separator, tree = point.tree separator := by
  cases points with
  | nil => cases h
  | cons point rest =>
      rcases List.mem_cons.1 h with rfl | hRest
      · exact ⟨point, List.mem_cons_self, "", rfl⟩
      · obtain ⟨other, hOther, rfl⟩ := List.mem_map.1 hRest
        exact ⟨other, List.mem_cons_of_mem _ hOther, "\n", rfl⟩

namespace Program

variable {program : Program}

theorem of_mem_trees {tree : CTree} (h : tree ∈ program.trees) :
    (∃ sizes ∈ program.sizeFunctions, tree = sizes.tree) ∨
    (∃ encodes ∈ program.encodeFunctions, tree = encodes.tree) ∨
    ∃ point ∈ program.entryPoints, ∃ separator, tree = point.tree separator := by
  simp only [trees, List.mem_append, List.mem_map] at h
  rcases h with (⟨sizes, hSizes, rfl⟩ | ⟨encodes, hEncodes, rfl⟩) | hEntry
  · exact .inl ⟨sizes, hSizes, rfl⟩
  · exact .inr (.inl ⟨encodes, hEncodes, rfl⟩)
  · exact .inr (.inr (mem_entryTrees hEntry))

theorem sizes_mem_trees {sizes : SizeFunction} (h : sizes ∈ program.sizeFunctions) :
    sizes.tree ∈ program.trees := by
  simp only [trees, List.mem_append]
  exact .inl (.inl (List.mem_map_of_mem h))

theorem encodes_mem_trees {encodes : EncodeFunction} (h : encodes ∈ program.encodeFunctions) :
    encodes.tree ∈ program.trees := by
  simp only [trees, List.mem_append]
  exact .inl (.inr (List.mem_map_of_mem h))

end Program

end WireSchema
