import Reckon.Number.Arith
import Reckon.Value.Basic

namespace Reckon

abbrev ValueAnswer := Except Fault (Except Cause Value)

namespace Value

/-- A vector of results, or the first cause among them. -/
def ofElements (xs : List (Except Cause Value)) : Except Cause Value :=
  (xs.mapM id).map .vector

def scalarOp (p : Precision) (op : Op) (a b : Value) : ValueAnswer :=
  match a, b with
  | .number x, .number y => do return (← x.combine p op y).map .number
  | .number _, b => .ok (.error (.operandType .right op b.kind))
  | a, _ => .ok (.error (.operandType .left op a.kind))

mutual

/-- An operation with a scalar on the left. -/
def broadcast (p : Precision) (op : Op) (a : Value) : Value → ValueAnswer
  | .vector bs =>
    if op = .mod then .ok (.error .modulusOfVectors)
    else do return ofElements (← broadcastAll p op a bs)
  | b => scalarOp p op a b

def broadcastAll (p : Precision) (op : Op) (a : Value) :
    List Value → Except Fault (List (Except Cause Value))
  | [] => .ok []
  | b :: bs => do
    let x ← broadcast p op a b
    let xs ← broadcastAll p op a bs
    return x :: xs

end

theorem broadcastAll_eq_mapM (p : Precision) (op : Op) (a : Value) (bs : List Value) :
    broadcastAll p op a bs = bs.mapM (broadcast p op a) := by
  induction bs with
  | nil => rfl
  | cons b bs ih => rw [broadcastAll, ih, List.mapM_cons]

mutual

/-- A binary operation. Every element is found before the first cause among them is taken, so a
fault in any of them counts. -/
def arith (p : Precision) (op : Op) : Value → Value → ValueAnswer
  | .vector as, b =>
    if op = .mod then .ok (.error .modulusOfVectors)
    else match b with
      | .vector bs =>
        if as.length = bs.length then do return ofElements (← arithZip p op as bs)
        else .ok (.error (.sizesDiffer op))
      | b => do return ofElements (← arithAll p op as b)
  | a, b => broadcast p op a b

def arithZip (p : Precision) (op : Op) :
    List Value → List Value → Except Fault (List (Except Cause Value))
  | a :: as, b :: bs => do
    let x ← arith p op a b
    let xs ← arithZip p op as bs
    return x :: xs
  | _, _ => .ok []

def arithAll (p : Precision) (op : Op) :
    List Value → Value → Except Fault (List (Except Cause Value))
  | [], _ => .ok []
  | a :: as, b => do
    let x ← arith p op a b
    let xs ← arithAll p op as b
    return x :: xs

end

theorem arithZip_eq_mapM (p : Precision) (op : Op) (as bs : List Value) :
    arithZip p op as bs = (as.zip bs).mapM fun ab => arith p op ab.1 ab.2 := by
  induction as generalizing bs with
  | nil =>
    rw [arithZip]
    · rfl
    · simp
  | cons a as ih =>
    cases bs with
    | nil =>
      rw [arithZip]
      · rfl
      · simp
    | cons b bs => rw [arithZip, ih, List.zip_cons_cons, List.mapM_cons]

theorem arithAll_eq_mapM (p : Precision) (op : Op) (as : List Value) (b : Value) :
    arithAll p op as b = as.mapM fun a => arith p op a b := by
  induction as with
  | nil =>
    rw [arithAll]
    rfl
  | cons a as ih => rw [arithAll, ih, List.mapM_cons]

def factorial : Nat → Nat
  | 0 => 1
  | n + 1 => (n + 1) * factorial n

/-- A unary operation: the factorial of a small integer. -/
def unaryOp (op : Op) (a : Value) : ValueAnswer :=
  if op ≠ .fact then .error (.unaryOperator op)
  else match a with
    | .number (.int n) =>
      if Cause.maxFactorial < n then .ok (.error (.factorialTooLarge n))
      else if n < 0 then .ok (.error .factorialOfNegative)
      else .ok (.ok (.int (Int64.ofNat (factorial n.toInt.toNat))))
    | _ => .ok (.error .factorialOfOther)

end Value

end Reckon
