import Ifj22.Code.Program
import Mathlib.Logic.Relation
set_option autoImplicit false

/-!
# Machine: running code

The machine that code is run on has a global frame, a stack of local frames, a temporary frame, a
data stack and a stack of return addresses.  What it does to frames, stacks and jumps, and to ints,
truth values and texts, is fixed here.  What it does to floats, and to ints outside the 64-bit range,
is left to a `Machine`.

A place in the code is the code from there on.
-/

namespace Ifj22

open Code

namespace Machine

/-- The values of the machine. -/
inductive Value
  | int (n : Int)
  | float (x : Float)
  | str (s : String)
  | bool (b : Bool)
  | nil

/-- The variables of a frame by their names: declared ones may have no value yet. -/
abbrev Store := String → Option (Option Value)

/-- A frame with a variable set. -/
def Store.set (s : Store) (name : String) (x : Option Value) : Store :=
  fun n => if n = name then some x else s n

/-- Where the machine is.  There is no counter for the instructions: a jump and a return lead to
the code from there on. -/
structure Config where
  /-- The code that is still to be run. -/
  code : List Instr
  gf : Store
  /-- The local frames, the innermost one first. -/
  lf : List Store
  tf : Option Store
  /-- The data stack, the top first. -/
  stack : List Value
  /-- Where the calls return to, the innermost one first. -/
  calls : List (List Instr)
  input : List String
  output : String

end Machine

/-- What is left open of the machine.  Frames, stacks, jumps, and sums, differences and products
of words are fixed by `step`.  How floats and texts are computed with, what is read, and what
becomes of a result that is no word is not, so that a statement about every machine does not hang
on it. -/
structure Machine where
  /-- The int that an operation yields whose exact result is given. -/
  round : Int → Option Int
  /-- The operations on two values that are not fixed below. -/
  binary : Binary → Machine.Value → Machine.Value → Option Machine.Value
  /-- The operations on one value that are not fixed below. -/
  unary : Unary → Machine.Value → Option Machine.Value
  /-- A value that is read, and the rest of the input. -/
  read : InputKind → List String → Machine.Value × List String
  /-- How a float is printed. -/
  floatText : Float → String
  /-- Results that fit into 64 bits are exact. -/
  round_exact : ∀ n, -2 ^ 63 ≤ n → n < 2 ^ 63 → round n = some n

namespace Machine

/-! ## Values -/

/-- The name of the type of a value. -/
def Value.typeName : Value → String
  | .int _ => "int"
  | .float _ => "float"
  | .str _ => "string"
  | .bool _ => "bool"
  | .nil => "nil"

/-- Whether two values are equal; they are of one type, or one of them is nil. -/
def equal? : Value → Value → Option Bool
  | .int a, .int b => some (a == b)
  | .float a, .float b => some (a == b)
  | .str a, .str b => some (a == b)
  | .bool a, .bool b => some (a == b)
  | .nil, .nil => some true
  | .nil, _ => some false
  | _, .nil => some false
  | _, _ => none

variable (m : Machine)

/-- What an operation on two values yields. -/
def binaryOp : Binary → Value → Value → Option Value
  | .add, .int a, .int b => (m.round (a + b)).map .int
  | .sub, .int a, .int b => (m.round (a - b)).map .int
  | .mul, .int a, .int b => (m.round (a * b)).map .int
  | .lt, .int a, .int b => some (.bool (decide (a < b)))
  | .gt, .int a, .int b => some (.bool (decide (a > b)))
  | .eq, a, b => (equal? a b).map .bool
  | op, a, b => m.binary op a b

/-- What an operation on one value yields. -/
def unaryOp : Unary → Value → Option Value
  | .not, .bool b => some (.bool !b)
  | op, x => m.unary op x

/-- How a value is printed. -/
def text : Value → String
  | .int n => toString n
  | .float x => m.floatText x
  | .str s => s
  | .bool b => if b then "true" else "false"
  | .nil => ""

/-! ## Frames -/

namespace Config

/-- The frame of a kind, if there is one. -/
def frame? (c : Config) : Frame → Option Store
  | .gf => some c.gf
  | .lf => c.lf.head?
  | .tf => c.tf

/-- What a variable holds, if it is declared. -/
def get (c : Config) (v : Var) : Option (Option Value) := (c.frame? v.frame).bind (· v.name)

/-- The configuration with a variable set in its frame. -/
def update (c : Config) (v : Var) (x : Option Value) : Config :=
  match v.frame with
  | .gf => { c with gf := c.gf.set v.name x }
  | .lf => { c with lf := c.lf.modifyHead (·.set v.name x) }
  | .tf => { c with tf := c.tf.map (·.set v.name x) }

/-- Gives a declared variable a value. -/
def set? (c : Config) (v : Var) (x : Value) : Option Config :=
  if (c.get v).isSome then some (c.update v (some x)) else none

/-- Declares a variable that is not declared in its frame. -/
def declare? (c : Config) (v : Var) : Option Config :=
  if (c.frame? v.frame).isSome ∧ c.get v = none then some (c.update v none) else none

/-- The value of an operand. -/
def value? (c : Config) : Operand → Option Value
  | .var v => (c.get v).join
  | .int n => some (.int n.toInt)
  | .float x => some (.float x)
  | .str s => some (.str s)
  | .bool b => some (.bool b)
  | .nil => some .nil

/-- The name of the type of an operand; it is empty for a variable without a value. -/
def typeName? (c : Config) : Operand → Option String
  | .var v => (c.get v).map fun held => (held.map Value.typeName).getD ""
  | a => (c.value? a).map Value.typeName

/-- The configuration at another place. -/
def goto (c : Config) (code : List Instr) : Config := { c with code := code }

/-- The machine before the first instruction. -/
def start (code : List Instr) (input : List String) : Config where
  code := code
  gf _ := none
  lf := []
  tf := none
  stack := []
  calls := []
  input := input
  output := ""

end Config

/-! ## Steps -/

/-- The place behind a label. -/
def target? : List Instr → String → Option (List Instr)
  | [], _ => none
  | .label l :: rest, name => if l.text = name then some rest else target? rest name
  | _ :: rest, name => target? rest name

/-- The configuration at a label of the program. -/
def Config.jump? (c : Config) (program : List Instr) (l : Label) : Option Config :=
  (target? program l.text).map c.goto

/-- Carries out an instruction, with the code behind it still to be run. -/
def advance? (program : List Instr) (c : Config) : Instr → Option Config
  | .move dest src => do c.set? dest (← c.value? src)
  | .createFrame => some { c with tf := some fun _ => none }
  | .pushFrame => do
    let frame ← c.tf
    some { c with lf := frame :: c.lf, tf := none }
  | .popFrame => do
    let frame ← c.lf.head?
    some { c with lf := c.lf.tail, tf := some frame }
  | .defVar v => c.declare? v
  | .call target => Config.jump? { c with calls := c.code :: c.calls } program target
  | .ret => do
    let back ← c.calls.head?
    some { c with code := back, calls := c.calls.tail }
  | .push src => do
    let x ← c.value? src
    some { c with stack := x :: c.stack }
  | .pop dest => do
    let x ← c.stack.head?
    Config.set? { c with stack := c.stack.tail } dest x
  | .binary op dest a b => do c.set? dest (← m.binaryOp op (← c.value? a) (← c.value? b))
  | .unary .typeOf dest a => do c.set? dest (.str (← c.typeName? a))
  | .unary op dest a => do c.set? dest (← m.unaryOp op (← c.value? a))
  | .read dest kind => Config.set? { c with input := (m.read kind c.input).2 } dest
      (m.read kind c.input).1
  | .write src => do
    let x ← c.value? src
    some { c with output := c.output ++ m.text x }
  | .label _ => some c
  | .jump target => c.jump? program target
  | .jumpIfEq target a b => do
    if ← equal? (← c.value? a) (← c.value? b) then c.jump? program target else some c
  | .jumpIfNeq target a b => do
    if ← equal? (← c.value? a) (← c.value? b) then some c else c.jump? program target
  | .exit _ => none

/-- Carries out the next instruction. -/
def step (program : List Instr) (c : Config) : Option Config :=
  match c.code with
  | [] => none
  | i :: rest => m.advance? program (c.goto rest) i

section

variable {m} {program rest : List Instr} {c : Config}

theorem step_eq {i : Instr} (hcode : c.code = i :: rest) :
    m.step program c = m.advance? program (c.goto rest) i := by
  unfold step
  rw [hcode]

theorem step_label {l : Label} (hcode : c.code = .label l :: rest) :
    m.step program c = some (c.goto rest) := by
  rw [step_eq hcode, advance?]

theorem step_createFrame (hcode : c.code = .createFrame :: rest) :
    m.step program c = some { c.goto rest with tf := some fun _ => none } := by
  rw [step_eq hcode, advance?]

theorem step_exit {a : Operand} (hcode : c.code = .exit a :: rest) :
    m.step program c = none := by
  rw [step_eq hcode, advance?]

end

/-- The machine comes from one configuration to another. -/
def Runs (program : List Instr) : Config → Config → Prop :=
  Relation.ReflTransGen fun c c' => m.step program c = some c'

/-- The ints up to a number are results of the machine; `counts_of_lt` is what every machine has. -/
def Counts (n : Nat) : Prop := ∀ k : Nat, k ≤ n → m.round k = some (k : Int)

theorem counts_of_lt {n : Nat} (h : n < 2 ^ 63) : m.Counts n :=
  fun k hk => m.round_exact k (by omega) (by omega)

/-- A machine whose ints have no bound and that does nothing else. -/
def unbounded : Machine where
  round := some
  binary _ _ _ := none
  unary _ _ := none
  read _ input := (.nil, input)
  floatText _ := ""
  round_exact _ _ _ := rfl

/-- The machine comes to an exit with that operand, and by then this has been written.  An exit
has no step behind it, so this is the end of the run. -/
def Exits (program : List Instr) (c : Config) (code : Operand) (output : String) : Prop :=
  ∃ c' rest, m.Runs program c c' ∧ c'.code = .exit code :: rest ∧ c'.output = output

end Machine

end Ifj22
