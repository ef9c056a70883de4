import WireSchema.Proofs.SyntaxTrees

/-!
# What the statements of a variable-length array mean

`varLenStatements` is text.  Here the same statements are a small language of their own, with
the meaning that C gives them: `CStmt.trees` gives the syntax trees of the statements, and
with them their text, and `CStmt.runAll` runs them.

The offset and the length of a descriptor and the cursor are 16-bit objects.  Reading one
gives an `int`, as narrow integers are promoted; an `int` meets a `size_t` as a
`size_t`; and an assignment keeps the low 16 bits.  The sum of two `int` values has to
stay in the range of `int`, or the statement has no meaning at all.

The loop copies as many elements as the length field of the source value says, from the cursor
on.  As long as the cursor is behind the packed type and the last element ends within the
capacity, it writes none of the three objects: the descriptor is in the packed type, and the
cursor is a variable of the entry point.  Then all that the loop leaves to see here is that it
has been reached, which is the meaning that `CStmt.copyElements` has.  Where only the low 16
bits of the length or of the cursor were kept, more is copied than has been reserved: the loop
writes over payload that is reserved later, over the packed type with its descriptors, or past
the buffer.  What the objects hold when the loop begins is right in any case; what it leaves
behind is not described then.

## Main results

* `textAll_storeStatements`, `encodeStatements_eq`: the statements are those of the text.
* `runAll_storeStatements`: what the statements do, for all counts, sizes and cursors.
* `runAll_cursorStatements`: where an entry point sets the cursor.
-/

namespace WireSchema

/-! ## Values -/

/-- What an expression can be: an `int`, not negative here, or a `size_t`. -/
inductive CValue where
  | int (value : Nat)
  | size (value : UInt64)

namespace CValue

/-- The value as a `size_t`. -/
def toSize : CValue → UInt64
  | int value => .ofNat value
  | size value => value

/-- The value as it is kept in a 16-bit object. -/
def toUInt16 : CValue → UInt16
  | int value => .ofNat value
  | size value => value.toUInt16

/-- The number of values of `int` that are not negative: the type has 32 bits. -/
def intSize : Nat := 2147483648

/-- The `int` of this value, if there is one. -/
def ofInt? (value : Nat) : Option CValue :=
  if value < intSize then some (int value) else none

/-- The sum, in the type that both operands are converted to. -/
def add? : CValue → CValue → Option CValue
  | int a, int b => ofInt? (a + b)
  | a, b => some (size (a.toSize + b.toSize))

/-- The product, in the type that both operands are converted to. -/
def mul? : CValue → CValue → Option CValue
  | int a, int b => ofInt? (a * b)
  | a, b => some (size (a.toSize * b.toSize))

/-- Comparison in the type that both operands are converted to. -/
def atMost : CValue → CValue → Bool
  | int a, int b => decide (a ≤ b)
  | a, b => decide (a.toSize ≤ b.toSize)

end CValue

/-! ## Syntax -/

/-- The 16-bit objects. -/
inductive CObject where
  | offset
  | length
  | cursor

/-- Expressions: a number, an object, the length field of the source value, the size of the
type, and the capacity of the payload. -/
inductive CExpr where
  | literal (value : Nat)
  | object (target : CObject)
  | count
  | sizeOf
  | capacity
  | add (a b : CExpr)
  | mul (a b : CExpr)

/-- Conditions. -/
inductive CCond where
  | greater (a b : CExpr)
  | atMost (a b : CExpr)
  | both (a b : CCond)

/-- Statements. -/
inductive CStmt where
  /-- A pointer to where the elements go. -/
  | locate
  | declareCursor (value : CExpr)
  | assign (target : CObject) (value : CExpr)
  | increase (target : CObject) (value : CExpr)
  /-- The loop that copies the elements.  It means no more than that they are copied, which is
  right as long as they end within the capacity. -/
  | copyElements
  | branch (cond : CCond) (yes no : List CStmt)

/-! ## Text -/

/-- The names in the statements, and how an element is copied. -/
structure CNames where
  field : String
  lengthField : String
  type : String
  copy : Copy

def CObject.text (names : CNames) : CObject → String
  | offset => "out->" ++ names.field ++ ".offset"
  | length => "out->" ++ names.field ++ ".length"
  | cursor => "*vlaOffset"

def CExpr.text (names : CNames) : CExpr → String
  | literal value => Text.natural value
  | object target => target.text names
  | count => "in->" ++ names.lengthField
  | sizeOf => "sizeof(" ++ names.type ++ ")"
  | capacity => "payloadSize"
  | add a b => a.text names ++ " + " ++ b.text names
  | mul a b => a.text names ++ " * " ++ b.text names

def CCond.text (names : CNames) : CCond → String
  | greater a b => a.text names ++ " > " ++ b.text names
  | atMost a b => a.text names ++ " <= " ++ b.text names
  | both a b => a.text names ++ " &&\n      " ++ b.text names

mutual

/-- The syntax tree of the statement. -/
def CStmt.tree (names : CNames) : CStmt → CStatement
  | .locate =>
    .declaration ⟨names.type ++ " *", names.field⟩
      [.plain ("(" ++ names.type ++ " *) &payload[*vlaOffset]")]
  | .declareCursor value => .declaration ⟨"uint16_t ", "vlaOffset"⟩ [.plain (value.text names)]
  | .assign target value => .simple [.plain (target.text names ++ " = " ++ value.text names)]
  | .increase target value => .simple [.plain (target.text names ++ " += " ++ value.text names)]
  | .copyElements =>
    .loop "i" ("in->" ++ names.lengthField)
      [names.copy.tree ("in->" ++ names.field ++ "[i]") (names.field ++ "[i]")]
  | .branch cond yes no =>
    .choice (cond.text names) (CStmt.trees names yes) (CStmt.trees names no)

/-- The syntax trees of statements that follow each other. -/
def CStmt.trees (names : CNames) : List CStmt → List CStatement
  | [] => []
  | stmt :: rest => stmt.tree names :: CStmt.trees names rest

end

/-- The text of statements that follow each other. -/
def CStmt.textAll (names : CNames) (indent : String) (stmts : List CStmt) : String :=
  CStatement.textAll indent (CStmt.trees names stmts)

/-! ## Meaning -/

/-- What the statements read and do not change.  The length field is that of the source
value, as a `size_t`. -/
structure CInputs where
  count : UInt64
  typeSize : UInt64
  capacity : UInt64

/-- The 16-bit objects, and whether the loop over the elements has been reached. -/
structure CState where
  offset : UInt16
  length : UInt16
  cursor : UInt16
  stored : Bool
  deriving DecidableEq

namespace CState

def get (state : CState) : CObject → UInt16
  | .offset => state.offset
  | .length => state.length
  | .cursor => state.cursor

def set (state : CState) (value : UInt16) : CObject → CState
  | .offset => { state with offset := value }
  | .length => { state with length := value }
  | .cursor => { state with cursor := value }

end CState

def CExpr.eval (inputs : CInputs) (state : CState) : CExpr → Option CValue
  | literal value => CValue.ofInt? value
  | object target => some (.int (state.get target).toNat)
  | count => some (.size inputs.count)
  | sizeOf => some (.size inputs.typeSize)
  | capacity => some (.size inputs.capacity)
  | add a b => do (← a.eval inputs state).add? (← b.eval inputs state)
  | mul a b => do (← a.eval inputs state).mul? (← b.eval inputs state)

def CCond.eval (inputs : CInputs) (state : CState) : CCond → Option Bool
  | greater a b => do return !(← a.eval inputs state).atMost (← b.eval inputs state)
  | atMost a b => do return (← a.eval inputs state).atMost (← b.eval inputs state)
  | both a b => do if ← a.eval inputs state then b.eval inputs state else return false

mutual

def CStmt.run (inputs : CInputs) : CStmt → CState → Option CState
  | .locate, state => some state
  | .declareCursor value, state => do
    return state.set (← value.eval inputs state).toUInt16 .cursor
  | .assign target value, state => do
    return state.set (← value.eval inputs state).toUInt16 target
  | .increase target value, state => do
    let sum ← CValue.add? (.int (state.get target).toNat) (← value.eval inputs state)
    return state.set sum.toUInt16 target
  | .copyElements, state => some { state with stored := true }
  | .branch cond yes no, state => do
    if ← cond.eval inputs state then CStmt.runAll inputs yes state
    else CStmt.runAll inputs no state

def CStmt.runAll (inputs : CInputs) : List CStmt → CState → Option CState
  | [], state => some state
  | stmt :: rest, state => do CStmt.runAll inputs rest (← stmt.run inputs state)

end

/-! ## The statements of a step -/

/-- The array has elements, and its end is within the capacity. -/
def storeCondition : CCond :=
  .both (.greater (.object .length) (.literal 0))
    (.atMost (.add (.object .cursor) (.object .length)) .capacity)

/-- The statements that reserve payload for the elements and copy them. -/
def reserveStatements : List CStmt :=
  [.assign .offset (.object .cursor), .increase .cursor (.object .length), .copyElements]

/-- The statements that leave the descriptor zero. -/
def zeroStatements : List CStmt :=
  [.assign .offset (.literal 0), .assign .length (.literal 0)]

/-- The statements that store a variable-length array. -/
def storeStatements : List CStmt :=
  [ .locate
  , .assign .length (.mul .count .sizeOf)
  , .branch storeCondition reserveStatements zeroStatements ]

/-- The statements are those of a step for a variable-length array. -/
theorem textAll_storeStatements (names : CNames) :
    CStmt.textAll names "  " storeStatements =
      varLenStatements names.field names.lengthField names.type names.copy := by
  -- Both texts are made of the same pieces, which the renderer puts together beforehand.
  have hIndents :
      "  " ++ "  " = "    " ∧ "    " ++ "  " = "      " ∧ "\n  " = "\n" ++ "  " := by simp
  have hDeclared :
      " = (" = " = " ++ "(" ∧
      " *) &payload[*vlaOffset];\n" = " *) &payload[*vlaOffset]" ++ ";\n" := by simp
  have hZero : Text.natural 0 = "0" := rfl
  have hChoice :
      "  if (out->" = "  " ++ "if (" ++ "out->" ∧
      ".length > 0 &&\n      *vlaOffset + out->" =
        ".length" ++ " > " ++ "0" ++ " &&\n      " ++ "*vlaOffset" ++ " + " ++ "out->" ∧
      ".length <= payloadSize) " = ".length" ++ " <= " ++ "payloadSize" ++ ") " := by simp
  have hLoop :
      "    for (size_t i = 0; i < in->" =
        "    " ++ "for (size_t " ++ "i" ++ " = 0; " ++ "i" ++ " < " ++ "in->" ∧
      "; i++) " = "; " ++ "i" ++ "++) " := by simp
  have hAssignments :
      "  out->" = "  " ++ "out->" ∧ ".length = in->" = ".length" ++ " = " ++ "in->" ∧
      " * sizeof(" = " * " ++ "sizeof(" ∧
      ");\n" = ")" ++ ";\n" ∧ "    out->" = "    " ++ "out->" ∧
      ".offset = *vlaOffset;\n" = ".offset" ++ " = " ++ "*vlaOffset" ++ ";\n" ∧
      "    *vlaOffset += out->" = "    " ++ "*vlaOffset" ++ " += " ++ "out->" ∧
      ".length;\n" = ".length" ++ ";\n" ∧
      ".offset = 0;\n" = ".offset" ++ " = " ++ "0" ++ ";\n" ∧
      ".length = 0;\n" = ".length" ++ " = " ++ "0" ++ ";\n" := by simp
  delta CStmt.textAll varLenStatements
  simp only [storeStatements, reserveStatements, zeroStatements, storeCondition, CStmt.trees,
    CStmt.tree, CExpr.text, CCond.text, CObject.text, CStatement.text_declaration,
    CStatement.text_simple, CStatement.text_choice, CStatement.text_loop, CStatement.textAll_cons,
    CStatement.textAll_nil, CPiece.textAll_plain, CVariable.text, Copy.text_tree, hIndents,
    hDeclared, hZero, hChoice, hLoop, hAssignments, String.append_assoc, String.append_empty]

/-- The length that the statements compute: the low 16 bits of the product. -/
def CInputs.length (inputs : CInputs) : UInt16 :=
  (inputs.count * inputs.typeSize).toUInt16

theorem CInputs.toNat_length (inputs : CInputs) :
    inputs.length.toNat = inputs.count.toNat * inputs.typeSize.toNat % UInt16.size := by
  rw [CInputs.length, UInt64.toNat_toUInt16, UInt64.toNat_mul]
  exact Nat.mod_mod_of_dvd _ (by decide)

/-- Two 16-bit numbers have a sum in the range of `int`. -/
theorem CValue.add_lt_intSize (a b : UInt16) : a.toNat + b.toNat < intSize := by
  have ha := a.toNat_lt
  have hb := b.toNat_lt
  unfold intSize
  omega

theorem CValue.add?_uint16 (a b : UInt16) :
    CValue.add? (.int a.toNat) (.int b.toNat) = some (.int (a.toNat + b.toNat)) :=
  if_pos (CValue.add_lt_intSize a b)

/-- An `int` is compared with a `size_t` as the numbers are. -/
theorem CValue.atMost_size {value : Nat} (h : value < intSize) (bound : UInt64) :
    CValue.atMost (.int value) (.size bound) = decide (value ≤ bound.toNat) := by
  have hSize : intSize ≤ UInt64.size := by decide
  show decide (UInt64.ofNat value ≤ bound) = decide (value ≤ bound.toNat)
  rw [decide_eq_decide, UInt64.le_iff_toNat_le,
    UInt64.toNat_ofNat_of_lt' (Nat.lt_of_lt_of_le h hSize)]

/-- The condition holds if the array has elements and ends within the capacity. -/
theorem eval_storeCondition (inputs : CInputs) (state : CState) :
    storeCondition.eval inputs state = some (decide (0 < state.length.toNat ∧
      state.cursor.toNat + state.length.toNat ≤ inputs.capacity.toNat)) := by
  have hNotEmpty : (CCond.greater (.object .length) (.literal 0)).eval inputs state =
      some (!decide (state.length.toNat ≤ 0)) := rfl
  have hFits : (CCond.atMost (.add (.object .cursor) (.object .length)) .capacity).eval inputs
      state = some (decide (state.cursor.toNat + state.length.toNat ≤ inputs.capacity.toNat)) := by
    show (do
      let sum ← CValue.add? (.int state.cursor.toNat) (.int state.length.toNat)
      return sum.atMost (.size inputs.capacity)) = _
    rw [CValue.add?_uint16]
    exact congrArg some (CValue.atMost_size (CValue.add_lt_intSize _ _) inputs.capacity)
  show (do
    if ← (CCond.greater (.object .length) (.literal 0)).eval inputs state then
      (CCond.atMost (.add (.object .cursor) (.object .length)) .capacity).eval inputs state
    else return false) = _
  rw [hNotEmpty, hFits]
  by_cases hZero : state.length.toNat = 0
  · simp [hZero]
  · simp [hZero, Nat.pos_of_ne_zero hZero]

theorem runAll_reserveStatements (inputs : CInputs) (state : CState) :
    CStmt.runAll inputs reserveStatements state =
      some ⟨state.cursor, state.length, state.cursor + state.length, true⟩ := by
  have hCursor : UInt16.ofNat state.cursor.toNat = state.cursor := UInt16.ofNat_toNat
  have hSum : UInt16.ofNat (state.cursor.toNat + state.length.toNat) =
      state.cursor + state.length := by
    rw [UInt16.ofNat_add, UInt16.ofNat_toNat, UInt16.ofNat_toNat]
  have hIncrease (state : CState) :
      (CStmt.increase .cursor (.object .length)).run inputs state =
        some { state with cursor := .ofNat (state.cursor.toNat + state.length.toNat) } := by
    show (do
      let sum ← CValue.add? (.int state.cursor.toNat) (.int state.length.toNat)
      return state.set sum.toUInt16 .cursor) = _
    rw [CValue.add?_uint16]
    rfl
  show (do
    let after ← (CStmt.increase .cursor (.object .length)).run inputs
      { state with offset := .ofNat state.cursor.toNat }
    some { after with stored := true }) = _
  rw [hIncrease, hCursor, ← hSum]
  rfl

theorem runAll_zeroStatements (inputs : CInputs) (state : CState) :
    CStmt.runAll inputs zeroStatements state = some ⟨0, 0, state.cursor, state.stored⟩ :=
  rfl

/-- What the statements do: they store the array if its 16-bit length is not zero and ends
within the capacity.  They have a meaning for every input. -/
theorem runAll_storeStatements (inputs : CInputs) (state : CState) :
    CStmt.runAll inputs storeStatements state = some
      (if 0 < inputs.length.toNat ∧
          state.cursor.toNat + inputs.length.toNat ≤ inputs.capacity.toNat then
        ⟨state.cursor, inputs.length, state.cursor + inputs.length, true⟩
      else ⟨0, 0, state.cursor, state.stored⟩) := by
  -- The length is assigned before the condition reads it.
  let held : CState := { state with length := inputs.length }
  show (do
    let after ← (do
      if ← storeCondition.eval inputs held then CStmt.runAll inputs reserveStatements held
      else CStmt.runAll inputs zeroStatements held)
    some after) = _
  rw [eval_storeCondition, runAll_reserveStatements, runAll_zeroStatements]
  by_cases hFits : 0 < inputs.length.toNat ∧
      state.cursor.toNat + inputs.length.toNat ≤ inputs.capacity.toNat
  · simp [held, hFits]
  · simp [held, hFits]

/-! ## The cursor of an entry point -/

/-- The declaration of the cursor, which begins behind the packed type. -/
def cursorStatements : List CStmt := [.declareCursor .sizeOf]

/-- The statements of an entry point for a variable-length type declare the cursor before they
call the encode function. -/
theorem encodeStatements_eq {point : EntryPoint} (h : point.varLen = true) (names : CNames)
    (hType : names.type = point.target) :
    point.encodeStatements =
      "  uint8_t *payload = (uint8_t *) encoded;\n" ++
      CStmt.textAll names "  " cursorStatements ++
      "  " ++ point.encoder ++ "(in, encoded, payload, payloadSize, &vlaOffset);\n\n" := by
  have hPieces :
      "  uint16_t vlaOffset = sizeof(" =
        "  " ++ "uint16_t " ++ "vlaOffset" ++ " = " ++ "sizeof(" ∧
      ");\n" = ")" ++ ";\n" := by simp
  simp only [EntryPoint.encodeStatements, h, if_true, cursorStatements, CStmt.textAll, CStmt.trees,
    CStmt.tree, CExpr.text, CStatement.text_declaration, CStatement.textAll_cons,
    CStatement.textAll_nil, CPiece.textAll_plain, CVariable.text, hType, hPieces,
    String.append_assoc, String.append_empty]

theorem runAll_cursorStatements (inputs : CInputs) (state : CState) :
    CStmt.runAll inputs cursorStatements state =
      some { state with cursor := inputs.typeSize.toUInt16 } :=
  rfl

end WireSchema
