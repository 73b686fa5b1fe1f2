import Monkey.Machine.Fault

/-!
# Operators on values

What the operators of the language compute, apart from any machine. Integers are 64-bit words and
wrap around.
-/

namespace Monkey.ValueOf

/-- Arithmetic on integers. Division goes toward zero. -/
def arithmetic (a b : Int64) : BinaryOperator → Except Fault (ValueOf F)
  | .add => .ok (.int (a + b))
  | .subtract => .ok (.int (a - b))
  | .multiply => .ok (.int (a * b))
  | .divide => if b = 0 then .error .divisionByZero else .ok (.int (a / b))
  | .greater => .ok (.bool (b < a))

/-- A binary operator. All take integers, and `+` also joins strings. -/
def binary (op : BinaryOperator) (left right : ValueOf F) : Except Fault (ValueOf F) :=
  match left, right with
  | .int a, .int b => arithmetic a b op
  | .str a, .str b =>
      if op = .add then .ok (.str (a ++ b)) else .error (.operandKinds op left.kind right.kind)
  | _, _ => .error (.operandKinds op left.kind right.kind)

/-- The prefix minus. -/
def negate : ValueOf F → Except Fault (ValueOf F)
  | .int a => .ok (.int (-a))
  | v => .error (.negatedKind v.kind)

/-- Collects keys and values, which come in turn, into entries. A value that is
left over is dropped. -/
def collectEntries (done : List (Key × ValueOf F)) :
    List (ValueOf F) → Except Fault (List (Key × ValueOf F))
  | k :: v :: rest =>
      match k.key? with
      | some key => collectEntries (insertEntry key v done) rest
      | none => .error (.unusableKey k.kind)
  | _ => .ok done

/-- The element of an array at a position, or null outside of it. -/
def elementAt (elements : List (ValueOf F)) (position : Int64) : ValueOf F :=
  if position < 0 then .null else elements[position.toInt.toNat]?.getD .null

/-- Indexing an array by an integer, or a hash by a key. What is not there is
null. -/
def atIndex (container position : ValueOf F) : Except Fault (ValueOf F) :=
  match container, position with
  | .array _ elements, .int i => .ok (elementAt elements i)
  | .hash _ entries, _ =>
      match position.key? with
      | some key => .ok ((lookup? key entries).getD .null)
      | none => .error (.unusableKey position.kind)
  | _, _ => .error (.indexKinds container.kind position.kind)

end Monkey.ValueOf
