/-
**Choosing the matched variables of a layer.**

Given the open summations of a layer, one variable is chosen as the common tuple, and in every
other summation that has a variable over the same table, one of those joins it.  Where there are
several, the choice compares what the bodies say about the tuple.  Evidence is asked for in three
strengths, and a weaker one is accepted only when nothing else moves:

* strict — one option is strictly closest to the summations decided on the other side;
* pattern — decided summations of the same side count if there are none on the other side, and
  ties are broken by the links to the output tuple, then by the position among the memberships;
* forced — the option that shares most with everything decided so far.

Main definitions:

* `Term.profile` — the keys of the atoms that mention a tuple;
* `Chooser` — the scope, the name of the common tuple, and the output tuple;
* `Chooser.choose` — **the matched variable of every summation**.
-/

import BagEquiv.Bag
import BagEquiv.Budget
import BagEquiv.Matching.Scope

set_option autoImplicit false

namespace BagEquiv

/-! ### What a term says about a tuple -/

namespace Term

/-- The keys of the atoms that mention a tuple. -/
def profile (t : Term) (base : String) : Bag Key :=
  .ofList ((t.atoms.filter (mentions base)).map key)

/-- Whether the keys of the atoms that mention a tuple can be computed with words. -/
def hasProfile (t : Term) (base : String) : Bool := (t.atoms.filter (mentions base)).all hasKey

/-- The profile, if its keys can be computed with words. -/
def Checked.profile (t : Term) (base : String) : Except Fault (Bag Key) :=
  if t.hasProfile base then .ok (t.profile base) else .error .overflow

/-- The columns that an atom sets equal: one of the output tuple, and one of the tuple `base`. -/
def outputLink? (output base : String) : Term → Option (String × String)
  | .pred .eq [.var (.proj a x), .var (.proj b y)] =>
      if x = output ∧ y = base then some (a, b)
      else if y = output ∧ x = base then some (b, a)
      else none
  | _ => none

/-- The columns of the output tuple that are set equal to columns of the tuple `base`. -/
def outputLinks (t : Term) (output base : String) : List (String × String) :=
  t.atoms.filterMap (outputLink? output base)

def isMembership : Term → Bool
  | .table _ _ => true
  | _ => false

def isMembershipOf (base : String) : Term → Bool
  | .table _ (.base b) => b = base
  | _ => false

/-- The position of the membership of a tuple among all memberships. -/
def membershipPosition? (t : Term) (base : String) : Option Nat :=
  (t.atoms.filter isMembership).findIdx? (isMembershipOf base)

end Term

/-! ### The common tuple -/

/-- The open summations of a layer, the name of its common tuple, and the output tuple. -/
structure Chooser where
  scope : List OpenSum
  tuple : String
  output : String

/-- A variable of a summation in scope, and the table it ranges over. -/
structure Candidate where
  index : Nat
  var : Var
  table : Option String
deriving DecidableEq

/-- How much evidence a decision needs. -/
inductive Evidence where
  | strict
  | pattern
  | forced
deriving DecidableEq, Repr

namespace Chooser

/-- The summations with their indices. -/
def numbered (c : Chooser) : List (Nat × OpenSum) := c.scope.zipIdx.map fun (s, i) => (i, s)

/-- Every variable of every summation. -/
def candidates (c : Chooser) : List Candidate :=
  c.numbered.flatMap fun (i, s) => s.vars.toList.map fun v => ⟨i, v, s.tableOf? v⟩

/-- The variables of a summation that range over a table. -/
def options (table : Option String) (s : OpenSum) : List Var :=
  s.vars.toList.filter fun v => s.tableOf? v = table

/-- The number of other summations that have a variable over the table of a candidate. -/
def reach (c : Chooser) (x : Candidate) : Nat :=
  (c.numbered.filter fun (i, s) => i ≠ x.index && !(options x.table s).isEmpty).length

/-- The candidate with the greatest reach, the earliest of several. -/
def common? (c : Chooser) : Option Candidate :=
  c.candidates.foldl (fun best x =>
    match best with
    | some y => if c.reach y < c.reach x then some x else some y
    | none => some x) none

/-! ### Evidence -/

/-- The variables matched so far, by the index of their summation. -/
abbrev Decided := List (Option Var)

/-- The body of a summation with a variable renamed to the common tuple. -/
def renamedBody (c : Chooser) (s : OpenSum) (v : Var) : Term := s.body.rename v.tuple c.tuple

/-- The renamed bodies of the decided summations that satisfy a condition. -/
def decidedBodies (c : Chooser) (d : Decided) (p : OpenSum → Bool) : List Term :=
  (c.scope.zip d).filterMap fun (s, v) => if p s then v.map (c.renamedBody s) else none

/-- The renamed bodies of the decided summations of a side. -/
def baseline (c : Chooser) (d : Decided) (side : Side) : List Term :=
  c.decidedBodies d (·.side = side)

/-- The least distance between the profiles of the common tuple, or nothing if there are no
targets. -/
def nearness (c : Chooser) (targets : List Term) (s : OpenSum) (v : Var) : Option Nat :=
  let p := (c.renamedBody s v).profile c.tuple
  (targets.map fun t => p.distance (t.profile c.tuple)).min?

/-- The options that are nearest to the targets. -/
def closest (c : Chooser) (targets : List Term) (s : OpenSum) (options : List Var) : List Var :=
  let scored := options.map fun v => (v, c.nearness targets s v)
  match (scored.filterMap Prod.snd).min? with
  | some least => (scored.filter fun (_, d) => d = some least).map Prod.fst
  | none => options

/-- The only member of a list. -/
def unique? : List Var → Option Var
  | [v] => some v
  | _ => none

/-- The only option that is linked to the output tuple like a decided summation. -/
def linked? (c : Chooser) (base : List Term) (s : OpenSum) (tied : List Var) : Option Var :=
  let links := base.flatMap fun t => t.outputLinks c.output c.tuple
  unique? (tied.filter fun v => (s.body.outputLinks c.output v.tuple).any links.contains)

/-- The only option whose membership stands where it does in a decided summation. -/
def positional? (c : Chooser) (base : List Term) (s : OpenSum) (tied : List Var) : Option Var :=
  let positions := base.filterMap fun t => t.membershipPosition? c.tuple
  unique? (tied.filter fun v => (s.body.membershipPosition? v.tuple).any (· ∈ positions))

/-- The option that shares most with everything decided, the first of several. -/
def overlapping (c : Chooser) (d : Decided) (s : OpenSum) (first : Var) (options : List Var) :
    Var :=
  let pool := (c.decidedBodies d fun _ => true).foldl (fun pool t =>
    pool.union (t.profile c.tuple)) (Bag.empty : Bag Key)
  let best := options.foldl (fun (best : Nat × Var) v =>
    let overlap := ((c.renamedBody s v).profile c.tuple).common pool
    if best.1 < overlap then (overlap, v) else best) (0, first)
  best.2

/-- An overflow, unless the options and the bodies they are compared with have profiles. -/
def requireProfiles (c : Chooser) (bodies : List Term) (s : OpenSum) (options : List Var) :
    Except Fault Unit :=
  if (bodies ++ options.map (c.renamedBody s)).all fun t => t.hasProfile c.tuple then .ok ()
  else .error .overflow

/-- The variable of a summation that joins the common tuple, if the evidence suffices. -/
def tryDecide (c : Chooser) (d : Decided) (mode : Evidence) (s : OpenSum) :
    List Var → Except Fault (Option Var)
  | [] => .ok none
  | [only] => .ok (some only)
  | first :: others =>
      let options := first :: others
      let opposite := c.baseline d s.side.opposite
      match mode with
      | .strict =>
          if opposite.isEmpty then .ok none
          else do
            c.requireProfiles opposite s options
            return unique? (c.closest opposite s options)
      | .pattern => do
          let base := if opposite.isEmpty then c.baseline d s.side else opposite
          c.requireProfiles base s options
          let tied := c.closest base s options
          return (unique? tied).or ((c.linked? base s tied).or (c.positional? base s tied))
      | .forced => do
          c.requireProfiles (c.decidedBodies d fun _ => true) s options
          return some (c.overlapping d s first options)

/-! ### Rounds -/

/-- A summation that is not decided yet, with the variables that can be matched. -/
structure Pending where
  index : Nat
  sum : OpenSum
  options : List Var

/-- The state of a round: what is decided, what was put off, whether anything was decided in this
round, and the evidence asked for. -/
structure Round where
  decided : Decided
  delayed : List Pending
  progress : Bool
  mode : Evidence

/-- One summation is decided or put off.  A forced decision restores the strict mode. -/
def Round.step (c : Chooser) (r : Round) (p : Pending) : Except Fault Round := do
  match ← c.tryDecide r.decided r.mode p.sum p.options with
  | some v =>
      return { r with
        decided := r.decided.set p.index (some v)
        progress := true
        mode := if r.mode = .forced then .strict else r.mode }
  | none => return { r with delayed := r.delayed ++ [p] }

/-- The evidence asked for in the next round. -/
def nextMode (progress : Bool) (mode : Evidence) : Evidence :=
  if progress then .strict
  else match mode with
    | .strict => .pattern
    | _ => .forced

/-- Rounds over the summations that are not decided, until there are none.  Of three rounds in
turn at least one decides a summation, so `fuel` need not exceed three times their number. -/
def rounds (c : Chooser) :
    (fuel : Nat) → Decided → Evidence → List Pending → Except Fault Decided
  | 0, d, _, _ => .ok d
  | fuel + 1, d, mode, queue => do
      let r ← queue.foldlM (Round.step c) ⟨d, [], false, mode⟩
      match r.delayed with
      | [] => return r.decided
      | _ => rounds c fuel r.decided (nextMode r.progress r.mode) r.delayed

/-- The summations that are to be decided once the common tuple is known. -/
def queue (c : Chooser) (x : Candidate) : List Pending :=
  c.numbered.filterMap fun (i, s) =>
    let os := options x.table s
    if i ≠ x.index && !os.isEmpty then some ⟨i, s, os⟩ else none

/-- What is decided once the common tuple is known. -/
def start (c : Chooser) (x : Candidate) : Decided :=
  (c.scope.map fun _ => none).set x.index (some x.var)

/-- The matched variable of every summation, in the order of the scope. -/
def choose (c : Chooser) (budget : Budget) : Except Failure (List (Option Var)) :=
  match c.common? with
  | none => .ok (c.scope.map fun _ => none)
  | some x => do
      Failure.ofError budget.check
      Failure.ofFault (c.rounds (3 * (c.queue x).length) (c.start x) .strict (c.queue x))

end Chooser

/-! ### The first matching -/

namespace Matching

/-- The layers from `depth` on for the open summations.  Each layer takes away a summation or a
variable of one, so `fuel` need not exceed their number. -/
def seedLayers (output : String) (budget : Budget) :
    (fuel depth : Nat) → List OpenSum → Except Failure (List VarSet)
  | _, _, [] => .ok []
  | 0, _, _ => .ok []
  | fuel + 1, depth, scope => do
      Failure.ofError budget.check
      let tuple := placeholder depth
      let matched ← Chooser.choose ⟨scope, tuple, output⟩ budget
      let below := (scope.zip matched).flatMap fun (s, v) => s.peel v tuple
      let layers ← seedLayers output budget fuel (depth + 1) below
      return .ofList (matched.filterMap id) :: layers

/-- The first matching of two terms. -/
def seed (left right : Term) (output : String) (budget : Budget) :
    Except Failure Matching := do
  let fuel := left.binderCount + right.binderCount
  return ⟨← seedLayers output budget fuel 0 (OpenSum.scope left right)⟩

end Matching

end BagEquiv
