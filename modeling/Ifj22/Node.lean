import Ifj22.Number.Display
import Ifj22.Number.Word
import Ifj22.Operator
import Ifj22.Text.Quoted
import Ifj22.Ty
set_option autoImplicit false

/-!
# Node: one node of a program tree

A node refers to its children by their places in an arena.  Statement lists and argument lists are
chains of nodes: a statement list grows to the left, with the earlier statements below `prev`, and
an argument list grows to the right.
-/

namespace Ifj22

/-- The place of a node in an arena. -/
abbrev NodeId := Nat

/-- A parameter of a function. -/
structure Param where
  name : String
  ty : Ty
  deriving DecidableEq, Repr, Inhabited

/-- A node of a program tree. -/
inductive Node
  | int (value : Int64)
  | float (value : Float)
  | str (value : String)
  | null
  | var (name : String)
  | binary (op : BinOp) (left right : NodeId)
  | unary (op : UnaryOp) (operand : NodeId)
  | assign (target : String) (value : NodeId)
  | call (name : String) (args : Option NodeId)
  /-- One link of an argument list, in source order. -/
  | argument (value : NodeId) (next : Option NodeId)
  /-- One link of a statement list: the earlier statements and the last one. -/
  | sequence (prev stmt : Option NodeId)
  | ifElse (cond thenBody : NodeId) (elseBody : Option NodeId)
  | whileLoop (cond body : NodeId)
  | function (name : String) (params : List Param) (declared : Option Ty) (body : NodeId)
  | ret (value : Option NodeId)
  deriving DecidableEq, Repr, Inhabited

namespace Node

/-- The statement that does nothing. -/
def empty : Node := .sequence none none

/-- The node is a constant. -/
def isLiteral : Node → Bool
  | .int _ | .float _ | .str _ | .null => true
  | _ => false

/-- The node is a constant number. -/
def isNumeric : Node → Bool
  | .int _ | .float _ => true
  | _ => false

/-- The children of a node, from left to right. -/
def children : Node → List NodeId
  | .int _ | .float _ | .str _ | .null | .var _ => []
  | .binary _ left right => [left, right]
  | .unary _ operand => [operand]
  | .assign _ value => [value]
  | .call _ args => args.toList
  | .argument value next => value :: next.toList
  | .sequence prev stmt => prev.toList ++ stmt.toList
  | .ifElse cond thenBody elseBody => cond :: thenBody :: elseBody.toList
  | .whileLoop cond body => [cond, body]
  | .function _ _ _ body => [body]
  | .ret value => value.toList

/-- Rebuilds a node with other children, found from left to right. -/
def traverse {m : Type → Type} [Monad m] (f : NodeId → m NodeId) : Node → m Node
  | .int value => pure (.int value)
  | .float value => pure (.float value)
  | .str value => pure (.str value)
  | .null => pure .null
  | .var name => pure (.var name)
  | .binary op left right => do
    let left ← f left
    let right ← f right
    pure (.binary op left right)
  | .unary op operand => do
    let operand ← f operand
    pure (.unary op operand)
  | .assign target value => do
    let value ← f value
    pure (.assign target value)
  | .call name args => do
    let args ← args.mapM f
    pure (.call name args)
  | .argument value next => do
    let value ← f value
    let next ← next.mapM f
    pure (.argument value next)
  | .sequence prev stmt => do
    let prev ← prev.mapM f
    let stmt ← stmt.mapM f
    pure (.sequence prev stmt)
  | .ifElse cond thenBody elseBody => do
    let cond ← f cond
    let thenBody ← f thenBody
    let elseBody ← elseBody.mapM f
    pure (.ifElse cond thenBody elseBody)
  | .whileLoop cond body => do
    let cond ← f cond
    let body ← f body
    pure (.whileLoop cond body)
  | .function name params declared body => do
    let body ← f body
    pure (.function name params declared body)
  | .ret value => do
    let value ← value.mapM f
    pure (.ret value)

/-- The name of a node's type. -/
def typeName : Node → String
  | .int _ => "Integer"
  | .float _ => "Float"
  | .str _ => "String"
  | .null => "Null"
  | .var _ => "Variable"
  | .binary op _ _ => op.name
  | .unary op _ => op.name
  | .assign _ _ => "Assign"
  | .call _ _ => "Call"
  | .argument _ _ => "Argument"
  | .sequence _ _ => "Sequence"
  | .ifElse _ _ _ => "If"
  | .whileLoop _ _ => "While"
  | .function _ _ _ _ => "Function"
  | .ret _ => "Return"

/-- The head line of a function: its name, parameters and declared type. -/
def signature (name : String) (params : List Param) (declared : Option Ty) : String :=
  let inner := ", ".intercalate (params.map fun p => p.ty.text ++ " " ++ p.name)
  let tail := match declared with
    | some ty => ": " ++ ty.text
    | none => ""
  name ++ "(" ++ inner ++ ")" ++ tail

/-- The line of a node in a tree dump. -/
def label : Node → String
  | .int value => "Integer " ++ Number.decimal value
  | .float value => "Float " ++ Number.displayText value
  | .str value => "String " ++ Text.quoted value
  | .var name => "Variable " ++ name
  | .assign target _ => "Assign " ++ target
  | .call name _ => "Call " ++ name
  | .function name params declared _ => "Function " ++ signature name params declared
  | node => node.typeName

/-! ## The full form of a node, for messages -/

/-- A name with fields in braces. -/
def braced (name : String) (fields : List (String × String)) : String :=
  name ++ " \x7b " ++ ", ".intercalate (fields.map fun f => f.1 ++ ": " ++ f.2) ++ " \x7d"

/-- The form of a child. -/
def idForm (id : NodeId) : String := "NodeId(" ++ toString id ++ ")"

/-- The form of an optional part. -/
def optionForm {α : Type} (form : α → String) : Option α → String
  | some a => "Some(" ++ form a ++ ")"
  | none => "None"

/-- The form of a type. -/
def tyForm (ty : Ty) : String := "Ty(" ++ toString ty.mask ++ ")"

/-- The form of a parameter. -/
def paramForm (p : Param) : String :=
  braced "Param" [("name", Text.quoted p.name), ("ty", tyForm p.ty)]

/-- The full form of a node: its constructor with all its fields. -/
def fullForm : Node → String
  | .int value => "Int(" ++ Number.decimal value ++ ")"
  | .float value => "Float(" ++ Number.displayText value ++ ")"
  | .str value => "Str(" ++ Text.quoted value ++ ")"
  | .null => "Null"
  | .var name => "Var(" ++ Text.quoted name ++ ")"
  | .binary op left right =>
    braced "Binary" [("op", op.name), ("left", idForm left), ("right", idForm right)]
  | .unary op operand => braced "Unary" [("op", op.name), ("operand", idForm operand)]
  | .assign target value =>
    braced "Assign" [("target", Text.quoted target), ("value", idForm value)]
  | .call name args => braced "Call" [("name", Text.quoted name), ("args", optionForm idForm args)]
  | .argument value next =>
    braced "Argument" [("value", idForm value), ("next", optionForm idForm next)]
  | .sequence prev stmt =>
    braced "Sequence" [("prev", optionForm idForm prev), ("stmt", optionForm idForm stmt)]
  | .ifElse cond thenBody elseBody =>
    braced "If" [("cond", idForm cond), ("then", idForm thenBody),
      ("otherwise", optionForm idForm elseBody)]
  | .whileLoop cond body => braced "While" [("cond", idForm cond), ("body", idForm body)]
  | .function name params declared body =>
    braced "Function" [("name", Text.quoted name),
      ("params", "[" ++ ", ".intercalate (params.map paramForm) ++ "]"),
      ("ret", optionForm tyForm declared), ("body", idForm body)]
  | .ret value => braced "Return" [("value", optionForm idForm value)]

end Node

end Ifj22
