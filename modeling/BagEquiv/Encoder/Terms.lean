/-
**Encoding terms without summations.**

Main definitions:

* `Encoder.encodePred`, `Encoder.encodeFunc` — predicates and functions, given
  the encoding of their arguments;
* `Encoder.encode` — **the formula of a term**.
-/

import BagEquiv.Encoder
import BagEquiv.Operation

set_option autoImplicit false

namespace BagEquiv.Encoder

/-- A step of the encoder that cannot fail. -/
def step {α : Type} (f : Encoder → α × Encoder) : EncodeM α := modifyGet f

/-! ### Predicates -/

/-- A flag or function value that is not zero counts as true. -/
def holds (f : Formula) : Formula := .indicator (.not (.eq f .zero))

/-- A test of one value.  A test of a column is a flag of its own. -/
def encodeTest (flag : String → String → EncodeM Symbol) (name : String) (arg : Term)
    (values : EncodeM (List Formula)) : EncodeM Formula :=
  match arg with
  | .var (.proj attr base) => do
      return .ite (isZero (← flag base attr)) .zero .one
  | _ => do return holds (.func name (← values) .int)

/-- The flag of a named test of a column. -/
def testFlag (name base attr : String) : Symbol := ⟨name ++ "!" ++ columnName base attr, .nat⟩

/-- A comparison of two values. -/
def comparison (kind : Pred) (a b : Formula) : EncodeM Formula :=
  match kind with
  | .eq => return .indicator (.eq a b)
  | .ne => return .indicator (.not (.eq a b))
  | .lt => return .indicator (.lt a b)
  | .le => return .indicator (.le a b)
  | .gt => return .indicator (.lt b a)
  | .ge => return .indicator (.le b a)
  | kind => refuse (.structuralMismatch (kind.text ++ " is not a comparison"))

/-- A comparison of two tuples. -/
def tupleComparison (kind : Pred) (x y : String) : EncodeM Formula := do
  let equal ← tupleEquation x y
  match kind with
  | .eq => return .indicator equal
  | .ne => return .indicator (.not equal)
  | kind =>
      refuse (.unsupported ("ordering " ++ kind.text ++ " between tuples " ++ x ++ " and " ++ y))

/-- The tuples that two arguments name, unless one is a placeholder. -/
def tuples? (e : Encoder) : List Term → Option (String × String)
  | [.var (.base x), .var (.base y)] => if e.isCount x || e.isCount y then none else some (x, y)
  | _ => none

/-- A predicate of two arguments. -/
def encodeBinary (kind : Pred) (args : List Term) (values : EncodeM (List Formula)) :
    EncodeM Formula := do
  match tuples? (← get) args with
  | some (x, y) => tupleComparison kind x y
  | none =>
      match ← values with
      | [a, b] => comparison kind a b
      | vs => refuse (.structuralMismatch (kind.text ++ " takes two arguments, got " ++
          toString vs.length))

/-- A predicate; `values` encodes its arguments. -/
def encodePred (kind : Pred) (args : List Term) (values : EncodeM (List Formula)) :
    EncodeM Formula :=
  match kind, args with
  | .isNull, [arg] => encodeTest (fun base attr => step (nullFlag base attr)) "isnull" arg values
  | .isNull, args => refuse (.structuralMismatch ("isnull takes one argument, got " ++
      toString args.length))
  | .named name, [arg] =>
      encodeTest (fun base attr => return testFlag name base attr) name arg values
  | .named name, _ => do return holds (.func name (← values) .int)
  | kind, [a, b] => encodeBinary kind [a, b] values
  | kind, args => refuse (.structuralMismatch (kind.text ++ " takes two arguments, got " ++
      toString args.length))

/-! ### Functions -/

/-- A function without a meaning of its own. -/
def uninterpreted (name : String) (values : EncodeM (List Formula)) : EncodeM Formula := do
  let vs ← values
  return .func name vs (if vs.any (·.type = .real) then .real else .int)

/-- A function; `values` encodes its arguments. -/
def encodeFunc (name : String) (args : List Term) (values : EncodeM (List Formula)) :
    EncodeM Formula :=
  let lower := name.toLower
  match Operation.ofName? lower, args.length with
  | some .plus, _ => do return .plus (← values)
  | some .times, _ => do return .mul (← values)
  | some .divide, 2 => do
      match ← values with
      | [a, b] => return .div a b
      | vs => return .func name vs .int
  | some .minus, 2 => do
      match ← values with
      | [a, b] => return .minus a b
      | vs => return .func name vs .int
  | some .minus, 1 => do
      match ← values with
      | [a] => return .minus .zero a
      | vs => return .func name vs .int
  | _, n =>
      if isCounting lower then do return .sym (← counting lower (.func name args))
      else if lower = "sqrt" ∧ n = 1 then do return .func "sqrt" (← values) .real
      else uninterpreted name values

/-! ### Terms -/

mutual

/-- The formula of a term. -/
def encode : Term → EncodeM Formula
  | .sum vars _ => refuse (.unsupported ("summation over " ++ vars.text ++
      " was not stripped before translation"))
  | .add terms => do return .plus (← encodeList terms)
  | .mul factors => do
      match ← encodeFactors factors with
      | some fs => return .mul fs
      | none => return .zero
  | .neg term => do return .ite (.eq (← encode term) .zero) .one .zero
  | .squash term => do return .ite (.eq (← encode term) .zero) .zero .one
  | .pred kind args => encodePred kind args (encodeList args)
  | .var (.proj attr base) => do return .sym ((← get).column base attr)
  | .var (.base name) => do
      if (← get).isCount name then return .sym ⟨name, .int⟩
      else refuse (.unsupported ("tuple " ++ name ++ " used as a value"))
  | .const q => return .const q
  | .table name (.base base) => return .sym ⟨countName name base, .nat⟩
  | .table name (.proj attr base) => refuse (.unsupported ("membership of column " ++
      (Var.proj attr base).text ++ " in " ++ name))
  | .func name args => encodeFunc name args (encodeList args)
  | .str s => do return .sym (← step (literal s))

def encodeList : List Term → EncodeM (List Formula)
  | [] => return []
  | t :: ts => do
      let f ← encode t
      let fs ← encodeList ts
      return f :: fs

/-- The factors of a product that are not one; nothing if one of them is zero, and then those
behind it are not looked at. -/
def encodeFactors : List Term → EncodeM (Option (List Formula))
  | [] => return some []
  | t :: ts => do
      let f ← encode t
      if f.constant?.any Fraction.isZero then return none
      else if f.constant?.any Fraction.isOne then encodeFactors ts
      else do
        let fs ← encodeFactors ts
        return fs.map (f :: ·)

end

end BagEquiv.Encoder
