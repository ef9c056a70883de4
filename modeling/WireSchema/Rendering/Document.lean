import WireSchema.Program
import WireSchema.Settings

/-!
# Generated documents

A program is rendered as two C documents: the declarations of a service, and the
functions that encode into them.  A document is a list of fragments, one for each thing
it contains; its text is their concatenation.  This module holds what both share.
-/

namespace WireSchema

/-- A generated document. -/
structure Document where
  name : String
  fragments : List String
  deriving DecidableEq, Inhabited

/-- The text of a document. -/
def Document.text (document : Document) : String :=
  String.join document.fragments

/-- An opening brace. -/
def openBrace : String := "\x7b"

/-- A closing brace. -/
def closeBrace : String := "\x7d"

/-- The license, if there is one, with a line break at its end. -/
def Settings.licenseText? (settings : Settings) : Option String :=
  settings.license.map fun text => if text.toList.getLast? = some '\n' then text else text ++ "\n"

/-- The notice that a document is generated. -/
def Settings.notice (settings : Settings) : String :=
  "// This file was automatically generated by " ++ settings.generator ++ "\n" ++
  "// DO NOT modify this file directly, as those changes will be lost the next\n" ++
  "// time the generator is executed\n\n"

/-- A source structure as spelled in parameter lists. -/
def sourceType (source : String) : String :=
  AggregateKind.struct.keyword ++ " " ++ source

/-- The signature of an entry point. -/
def EntryPoint.signature (entry : EntryPoint) : String :=
  "bool " ++ entry.function ++ "(\n" ++
  "    const " ++ sourceType entry.source ++ " *in,\n" ++
  "    " ++ entry.target ++ " **out,\n" ++
  "    size_t *outSize)"

end WireSchema
