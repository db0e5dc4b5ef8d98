/-
**The layers that an encoding goes through.**

Validating a matching and seeding one descend from layer to layer over a flat list of summations.
The encoder works on other data: it replaces summations by placeholders, splits a layer in stations
whose tuples have names of their own, and resolves what is inside the members of each station in a
call of its own.  Nevertheless both see the same summations at every depth.  What they see of one
is its side and the variables that it still binds, and neither depends on how tuples are named.

The calls are recorded by a variant of the encoder, which does the same apart from that.  A run
that fails has made some of the calls; one that succeeds has made them all.

Main definition:

* `Encoder.tracedLayer`, `Encoder.tracedDifference` — **the encoder with a record
  of the calls** of layers.

Main result:

* `Encoder.tracedDifference_calls` — **the encoder and the validation of a matching peel
  summations in the same way**.
-/

import Mathlib.Algebra.Order.Group.Multiset
import Mathlib.Algebra.BigOperators.Group.Multiset.Basic
import BagEquiv.Proofs.EncodingSoundness

set_option autoImplicit false

namespace BagEquiv

/-! ### Outlines -/

/-- A summation and those inside it: its side and its variables, but not its body. -/
inductive Outline where
  | mk (side : Side) (vars : VarSet) (inner : List Outline)

namespace Term

mutual

/-- The outlines of the summations that are in no other one. -/
def outlines (side : Side) : Term → List Outline
  | .sum vars body => [.mk side vars (outlines side body)]
  | .add terms => outlinesAll side terms
  | .mul factors => outlinesAll side factors
  | .neg term => outlines side term
  | .squash term => outlines side term
  | .pred _ args => outlinesAll side args
  | .func _ args => outlinesAll side args
  | .var _ => []
  | .const _ => []
  | .table _ _ => []
  | .str _ => []

def outlinesAll (side : Side) : List Term → List Outline
  | [] => []
  | t :: ts => outlines side t ++ outlinesAll side ts

end

mutual

/-- Binders are not renamed. -/
theorem outlines_rename (side : Side) (source target : String) :
    ∀ t : Term, (t.rename source target).outlines side = t.outlines side
  | .sum vars body => by
      rw [rename]
      split
      · rfl
      · rw [outlines, outlines, outlines_rename side source target body]
  | .add ts | .mul ts | .pred _ ts | .func _ ts => outlinesAll_rename side source target ts
  | .neg t | .squash t => outlines_rename side source target t
  | .var _ | .const _ | .table _ _ | .str _ => rfl

theorem outlinesAll_rename (side : Side) (source target : String) :
    ∀ ts : List Term, outlinesAll side (renameList source target ts) = outlinesAll side ts
  | [] => rfl
  | t :: ts => by
      rw [renameList, outlinesAll, outlinesAll, outlines_rename side source target t,
        outlinesAll_rename side source target ts]

end

end Term

namespace OpenSum

def outline (s : OpenSum) : Outline := .mk s.side s.vars (s.body.outlines s.side)

theorem map_outline_ofTerm (t : Term) (side : Side) :
    (ofTerm t side).map outline = t.outlines side := by
  induction t using Term.induct with
  | sum vars body _ | var | const | table | str => rfl
  | add ts ih | mul ts ih | pred _ ts ih | func _ ts ih =>
      rw [ofTerm, Term.summations, Term.outlines]
      induction ts with
      | nil => rfl
      | cons t ts hts =>
          rw [List.forall_mem_cons] at ih
          rw [Term.summationsAll, List.map_append, List.map_append, hts ih.2, Term.outlinesAll,
            ← ih.1]
          rfl
  | neg t ih | squash t ih => exact ih

end OpenSum

namespace Outline

/-- The side and the variables of a summation. -/
def label : Outline → Side × VarSet
  | .mk side vars _ => (side, vars)

/-- What is left below a layer. -/
def peel (matched : VarSet → Option Var) : Outline → List Outline
  | .mk side vars inner =>
      match matched vars with
      | some v =>
          if (vars.erase v).isEmpty then inner else [.mk side (vars.erase v) inner]
      | none => inner

end Outline

/-- What is left of a summation, whatever the tuple is called. -/
theorem OpenSum.outlines_peel (s : OpenSum) (matched : VarSet → Option Var) (tuple : String) :
    (s.peel (matched s.vars) tuple).map outline = s.outline.peel matched := by
  rw [peel, map_outline_ofTerm, outline, Outline.peel]
  cases matched s.vars with
  | none => rfl
  | some v =>
      dsimp only
      rw [rest_some]
      split
      · exact Term.outlines_rename s.side v.tuple tuple s.body
      · rw [Term.outlines, Term.outlines_rename]

/-! ### Summations by their depths -/

namespace Matching

/-- The summations at a depth: those of both terms, peeled so many times. -/
def scopeAt (m : Matching) (left right : Term) : ℕ → List OpenSum
  | 0 => OpenSum.scope left right
  | depth + 1 => m.descend depth (m.scopeAt left right depth)

/-- The validation of a matching looks for the variables of each layer among the summations at its
depth. -/
theorem firstUnbound?_eq_none_iff (m : Matching) (left right : Term) :
    ∀ (layers : List VarSet) (depth : ℕ),
      firstUnbound? m depth layers (m.scopeAt left right depth) = none ↔
        ∀ d layer, layers[d]? = some layer →
          ∀ v ∈ layer, ∃ s ∈ m.scopeAt left right (depth + d), v ∈ s.vars
  | [], depth => by simp [firstUnbound?]
  | layer :: layers, depth => by
      have hbelow := m.firstUnbound?_eq_none_iff left right layers (depth + 1)
      have hfind : layer.toList.find? (fun v =>
            !(m.scopeAt left right depth).any fun s => decide (v ∈ s.vars)) = none ↔
          ∀ v ∈ layer, ∃ s ∈ m.scopeAt left right depth, v ∈ s.vars := by
        have hmem : ∀ v, v ∈ layer.toList ↔ v ∈ layer := fun _ => Iff.rfl
        simp [hmem]
      have hstep : firstUnbound? m depth (layer :: layers) (m.scopeAt left right depth) = none ↔
          layer.toList.find? (fun v =>
            !(m.scopeAt left right depth).any fun s => decide (v ∈ s.vars)) = none ∧
          firstUnbound? m (depth + 1) layers (m.scopeAt left right (depth + 1)) = none := by
        rw [firstUnbound?]
        split
        case h_1 v hv => simp [hv]
        case h_2 hv => simp [hv, scopeAt]
      simp only [Nat.add_right_comm depth 1] at hbelow
      rw [hstep, hfind, hbelow]
      constructor
      · rintro ⟨hhead, htail⟩ d layer' hd
        cases d with
        | zero =>
            obtain rfl : layer = layer' := Option.some.inj hd
            exact hhead
        | succ d => exact htail d layer' hd
      · intro hall
        exact ⟨hall 0 layer rfl, fun d layer' hd => hall (d + 1) layer' hd⟩

/-- The variable among given ones that is matched at a layer. -/
def matchedAmong? (m : Matching) (depth : ℕ) (vars : VarSet) : Option Var :=
  match m.layer? depth with
  | some layer => vars.toList.find? fun v => decide (v ∈ layer)
  | none => none

/-- The labels that a summation at `depth` leads to, so many layers below. -/
def tier (m : Matching) : (layers depth : ℕ) → Outline → Multiset (Side × VarSet)
  | 0, _, o => {o.label}
  | layers + 1, depth, o =>
      ((o.peel (m.matchedAmong? depth)).map (m.tier layers (depth + 1))).sum

/-- The labels that summations at `depth` lead to, at each depth. -/
def due (m : Matching) (depth : ℕ) (os : List Outline) (d : ℕ) : Multiset (Side × VarSet) :=
  if depth ≤ d then (os.map (m.tier (d - depth) depth)).sum else 0

end Matching

/-- The sides and variables of some summations. -/
def labels (scope : List OpenSum) : Multiset (Side × VarSet) :=
  (scope.map fun s => (s.side, s.vars) : List (Side × VarSet))

namespace Matching

variable (m : Matching) (depth : ℕ)

theorem labels_eq (scope : List OpenSum) :
    labels scope = ((scope.map OpenSum.outline).map (m.tier 0 depth)).sum := by
  induction scope with
  | nil => rfl
  | cons s scope ih =>
      rw [List.map_cons, List.map_cons, List.sum_cons, ← ih]
      rfl

theorem map_outline_descend (scope : List OpenSum) :
    (m.descend depth scope).map OpenSum.outline =
      (scope.map OpenSum.outline).flatMap (Outline.peel (m.matchedAmong? depth)) := by
  rw [descend, List.map_flatMap, List.flatMap_map]
  exact List.flatMap_congr fun s _ => s.outlines_peel (m.matchedAmong? depth) (placeholder depth)

/-- One layer further below. -/
theorem sum_tier_succ (layers : ℕ) (os : List Outline) :
    ((os.flatMap (Outline.peel (m.matchedAmong? depth))).map (m.tier layers (depth + 1))).sum =
      (os.map (m.tier (layers + 1) depth)).sum := by
  rw [List.map_flatMap, List.flatMap_def, List.sum_flatten, List.map_map]
  rfl

theorem sum_tier_scopeAt (left right : Term) (layers : ℕ) :
    (((m.scopeAt left right depth).map OpenSum.outline).map (m.tier layers depth)).sum =
      (((OpenSum.scope left right).map OpenSum.outline).map (m.tier (depth + layers) 0)).sum := by
  induction depth generalizing layers with
  | zero => rw [Nat.zero_add, scopeAt]
  | succ depth ih =>
      rw [scopeAt, map_outline_descend, sum_tier_succ, ih, Nat.add_right_comm, Nat.add_assoc]

/-- The labels at a depth are those that the outermost summations lead to. -/
theorem labels_scopeAt (left right : Term) :
    labels (m.scopeAt left right depth) =
      m.due 0 ((OpenSum.scope left right).map OpenSum.outline) depth := by
  rw [m.labels_eq depth, sum_tier_scopeAt, due, if_pos (Nat.zero_le _)]
  rfl

theorem due_append (os ps : List Outline) :
    m.due depth (os ++ ps) = m.due depth os + m.due depth ps := by
  funext d
  rw [Pi.add_apply, due, due, due]
  split
  · rw [List.map_append, List.sum_append]
  · rfl

theorem due_nil : m.due depth [] = 0 := by
  funext d
  rw [due, List.map_nil, List.sum_nil, ite_self]
  rfl

theorem due_flatMap {ι : Type} (f : ι → List Outline) (xs : List ι) :
    m.due depth (xs.flatMap f) = (xs.map fun i => m.due depth (f i)).sum := by
  induction xs with
  | nil => exact m.due_nil depth
  | cons i xs ih => rw [List.flatMap_cons, due_append, ih, List.map_cons, List.sum_cons]

theorem due_perm {os ps : List Outline} (h : os.Perm ps) : m.due depth os = m.due depth ps := by
  funext d
  rw [due, due, (h.map _).sum_eq]

/-- The labels at `depth` itself, and those below. -/
theorem due_eq (scope : List OpenSum) (d : ℕ) :
    m.due depth (scope.map OpenSum.outline) d = (if d = depth then labels scope else 0) +
      m.due (depth + 1) ((scope.map OpenSum.outline).flatMap
        (Outline.peel (m.matchedAmong? depth))) d := by
  rw [due, due]
  rcases Nat.lt_trichotomy d depth with hlt | rfl | hlt
  · rw [if_neg (by omega), if_neg (by omega), if_neg (by omega), add_zero]
  · rw [if_pos (le_refl _), if_pos rfl, if_neg (by omega), add_zero, Nat.sub_self, m.labels_eq d]
  · rw [if_pos (by omega), if_neg (by omega), if_pos (by omega), zero_add, sum_tier_succ]
    rw [show d - (depth + 1) + 1 = d - depth by omega]

end Matching

namespace Encoder

/-! ### Recording calls -/

/-- A call of a layer: its depth and the summations in scope. -/
abbrev Call := ℕ × List OpenSum

/-- The labels of the summations in scope of all calls at a depth. -/
def callsAt (d : ℕ) (calls : List Call) : Multiset (Side × VarSet) :=
  ((calls.filter fun c => c.1 = d).map fun c => labels c.2).sum

/-- Encodings that record the calls of layers. -/
abbrev TraceM := ExceptT Failure (StateM (Encoder × List Call))

/-- A computation that records nothing. -/
def silently {α : Type} (x : EncodeM α) : TraceM α :=
  ExceptT.mk fun s => ((x.run.run s.1).1, (x.run.run s.1).2, s.2)

def record (c : Call) : TraceM Unit := modify fun s => (s.1, s.2 ++ [c])

/-- The star of some summations, with a record of the calls below. -/
def tracedStar (next : List Counted → TraceM (List Formula)) (tuple : String)
    (members : List Member) : TraceM Formula := do
  let (rows, below) ← silently (starRows tuple members)
  let nulls ← silently (step congruence)
  let stars ← next below
  let literals := (← silently get).distinctness
  return .star (members.map (·.symbol)) (rows.map Prod.fst) (members.map (·.sum.side))
    (.and (rows.map Prod.snd ++ nulls ++ stars ++ literals))

/-- The star of a station, with a record of the calls below. -/
def tracedResolve (next : List Counted → TraceM (List Formula)) (st : Station) :
    TraceM Formula := do
  tracedStar next (← silently (step st.enter)) st.members

/-- The stars of the summations in scope at a layer and below, with a record of this call and of
those below. -/
def tracedLayer (m : Matching) (budget : Budget) :
    (fuel depth : ℕ) → List Counted → TraceM (List Formula)
  | 0, depth, scope => do
      record (depth, scope.map Prod.snd)
      silently (poll budget)
      return []
  | fuel + 1, depth, scope => do
      record (depth, scope.map Prod.snd)
      silently (poll budget)
      let e ← silently get
      (stations e (membersAt m depth scope)).mapM
        (tracedResolve (tracedLayer m budget fuel (depth + 1)))

/-- The formula that two terms differ, with a record of all calls of layers. -/
def tracedDifference (m : Matching) (budget : Budget) (left right : Term) : TraceM Formula := do
  silently (poll budget)
  let aligned ← silently (attempt (m.aligned left right))
  let (l, lscope) ← silently (stripTerm left .left)
  let (r, rscope) ← silently (stripTerm right .right)
  let f ← silently (encode l)
  let g ← silently (encode r)
  let nulls ← silently (step congruence)
  let fuel := left.binderCount + right.binderCount
  let stars ← tracedLayer aligned budget fuel 0 (lscope ++ rscope)
  let literals := (← silently get).distinctness
  return .and (.not (.eq f g) :: nulls ++ stars ++ literals)

/-! ### Records that cover what is expected -/

/-- The calls are among those expected, and all of them if the computation succeeded. -/
structure Covers {α : Type} (r : Except Failure α) (calls : List Call)
    (expected : ℕ → Multiset (Side × VarSet)) : Prop where
  le : ∀ d, callsAt d calls ≤ expected d
  eq : ∀ a, r = .ok a → ∀ d, callsAt d calls = expected d

/-- Started in `e`, the first computation does what the second one does, and records calls that
cover those expected. -/
def Records {α : Type} (y : TraceM α) (x : EncodeM α) (e : Encoder)
    (expected : ℕ → Multiset (Side × VarSet)) : Prop :=
  ∀ log, ∃ calls, y.run.run (e, log) = ((x.run.run e).1, (x.run.run e).2, log ++ calls) ∧
    Covers (x.run.run e).1 calls expected

theorem callsAt_append (d : ℕ) (calls calls' : List Call) :
    callsAt d (calls ++ calls') = callsAt d calls + callsAt d calls' := by
  rw [callsAt, List.filter_append, List.map_append, List.sum_append]
  rfl

variable {α β : Type} {e : Encoder} {E E' : ℕ → Multiset (Side × VarSet)}

theorem records_silently (x : EncodeM α) (e : Encoder) : Records (silently x) x e 0 := by
  intro log
  refine ⟨[], ?_, fun d => le_refl _, fun a _ d => rfl⟩
  rw [List.append_nil]
  rfl

theorem records_pure (a : α) (e : Encoder) : Records (pure a) (pure a) e 0 := by
  intro log
  refine ⟨[], ?_, fun d => le_refl _, fun a _ d => rfl⟩
  rw [List.append_nil]
  rfl

theorem Records.bind {y : TraceM α} {x : EncodeM α} {g : α → TraceM β} {f : α → EncodeM β}
    (hx : Records y x e E) (hf : ∀ a e', Returns x e a e' → Records (g a) (f a) e' E') :
    Records (y >>= g) (x >>= f) e (E + E') := by
  intro log
  obtain ⟨calls, hrun, hcovers⟩ := hx log
  rw [run_bind, run_bind, hrun]
  rcases hresult : x.run.run e with ⟨err | a, e'⟩
  · -- What is left out because of a failure is not missed.
    refine ⟨calls, rfl, fun d => ?_, fun a ha => by cases ha⟩
    exact (hcovers.le d).trans (Multiset.le_add_right _ _)
  · obtain ⟨calls', hrun', hcovers'⟩ := hf a e' hresult (log ++ calls)
    rw [hresult] at hcovers
    refine ⟨calls ++ calls', ?_, fun d => ?_, fun b hb d => ?_⟩
    · rw [← List.append_assoc]
      exact hrun'
    · rw [callsAt_append]
      exact add_le_add (hcovers.le d) (hcovers'.le d)
    · rw [callsAt_append, hcovers.eq a rfl d, hcovers'.eq b hb d]
      rfl

theorem Records.congr {y : TraceM α} {x : EncodeM α} (h : Records y x e E) (hE : E = E') :
    Records y x e E' := hE ▸ h

/-- A step that records nothing comes first. -/
theorem Records.after {x : EncodeM α} {g : α → TraceM β} {f : α → EncodeM β}
    (hf : ∀ a e', Returns x e a e' → Records (g a) (f a) e' E) :
    Records (silently x >>= g) (x >>= f) e E :=
  ((records_silently x e).bind hf).congr (zero_add E)

theorem callsAt_cons (d : ℕ) (c : Call) (calls : List Call) :
    callsAt d (c :: calls) = (if d = c.1 then labels c.2 else 0) + callsAt d calls := by
  unfold callsAt
  by_cases h : d = c.1
  · rw [List.filter_cons_of_pos (by simp [h]), List.map_cons, List.sum_cons, if_pos h]
  · rw [List.filter_cons_of_neg (by simp [Ne.symm h]), if_neg h, zero_add]

/-- A call that is recorded comes first. -/
theorem Records.recorded {y : TraceM α} {x : EncodeM α} (h : Records y x e E) (c : Call) :
    Records (do record c; y) x e fun d => (if d = c.1 then labels c.2 else 0) + E d := by
  intro log
  obtain ⟨calls, hrun, hcovers⟩ := h (log ++ [c])
  refine ⟨c :: calls, ?_, fun d => ?_, fun a ha d => ?_⟩
  · rw [run_bind]
    change y.run.run (e, log ++ [c]) = _
    rw [hrun, List.append_assoc, List.singleton_append]
  · rw [callsAt_cons]
    exact add_le_add (le_refl _) (hcovers.le d)
  · rw [callsAt_cons, hcovers.eq a ha d]

theorem records_mapM {ι : Type} {g : ι → TraceM α} {f : ι → EncodeM α}
    {E : ι → ℕ → Multiset (Side × VarSet)} {xs : List ι}
    (h : ∀ i ∈ xs, ∀ e, Records (g i) (f i) e (E i)) (e : Encoder) :
    Records (xs.mapM g) (xs.mapM f) e (xs.map E).sum := by
  induction xs generalizing e with
  | nil => exact records_pure [] e
  | cons i xs ih =>
      rw [List.forall_mem_cons] at h
      rw [List.mapM_cons, List.mapM_cons, List.map_cons, List.sum_cons]
      refine (h.1 e).bind fun a e₁ _ => ?_
      exact ((ih h.2 e₁).bind fun as e₂ _ => records_pure _ _).congr (add_zero _)

/-! ### Layers -/

/-- The first computation records the calls that summations at `depth` lead to. -/
def Traces (m : Matching) (fuel depth : ℕ) (tracedNext : List Counted → TraceM (List Formula))
    (next : List Counted → EncodeM (List Formula)) : Prop :=
  ∀ scope e, binders scope ≤ fuel →
    Records (tracedNext scope) (next scope) e
      (m.due depth ((scope.map Prod.snd).map OpenSum.outline))

variable {m : Matching} {fuel depth : ℕ} {tracedNext : List Counted → TraceM (List Formula)}
  {next : List Counted → EncodeM (List Formula)}

/-- What is inside the members of a star, without their bodies. -/
theorem outlines_below {tuple : String} {ms : List Member} {rows : List (Symbol × Formula)}
    {below : List Counted} {e e' : Encoder}
    (hmatched : ∀ mem ∈ ms, mem.matched = m.matchedIn? depth mem.sum)
    (h : Returns (starRows tuple ms) e (rows, below) e') :
    (below.map Prod.snd).map OpenSum.outline =
      ms.flatMap fun mem => mem.sum.outline.peel (m.matchedAmong? depth) := by
  rw [starRows_below h, List.map_flatMap]
  refine List.flatMap_congr fun mem hmem => ?_
  rw [hmatched mem hmem]
  exact mem.sum.outlines_peel (m.matchedAmong? depth) tuple

theorem records_star {ms : List Member} (tuple : String) (e : Encoder)
    (hnext : Traces m fuel (depth + 1) tracedNext next) (hms : ms ≠ [])
    (hmatched : ∀ mem ∈ ms, mem.matched = m.matchedIn? depth mem.sum)
    (hfuel : binders (ms.map Member.counted) ≤ fuel + 1) :
    Records (tracedStar tracedNext tuple ms) (star next tuple ms) e
      (m.due (depth + 1) (ms.flatMap fun mem =>
        mem.sum.outline.peel (m.matchedAmong? depth))) := by
  refine .after fun rows e₁ hrows => ?_
  obtain ⟨rows, below⟩ := rows
  have hvars : ∀ mem ∈ ms, ∀ v ∈ mem.matched, v ∈ mem.sum.vars := by
    intro mem hmem v hv
    rw [hmatched mem hmem] at hv
    exact mem_of_matchedIn? hv
  have hbelow := binders_below_lt hrows hms hvars
  rw [← outlines_below hmatched hrows]
  refine .after fun nulls e₂ _ => ?_
  refine ((hnext below e₂ (by omega)).bind fun stars e₃ _ => ?_).congr (add_zero _)
  exact .after fun e₄ e₅ _ => records_pure _ _

/-- The calls that a layer leads to. -/
theorem records_layer (m : Matching) (budget : Budget) (fuel depth : ℕ) :
    Traces m fuel depth (tracedLayer m budget fuel depth) (layer m budget fuel depth) := by
  have recorded : ∀ {y : TraceM (List Formula)} {x : EncodeM (List Formula)} {depth : ℕ}
      {e : Encoder} (scope : List Counted), Records y x e (m.due (depth + 1)
        (((scope.map Prod.snd).map OpenSum.outline).flatMap
          (Outline.peel (m.matchedAmong? depth)))) →
      Records (do record (depth, scope.map Prod.snd); y) x e
        (m.due depth ((scope.map Prod.snd).map OpenSum.outline)) := by
    intro y x depth e scope h
    refine (h.recorded (depth, scope.map Prod.snd)).congr (funext fun d => ?_)
    exact (m.due_eq depth (scope.map Prod.snd) d).symm
  induction fuel generalizing depth with
  | zero =>
      intro scope e hfuel
      obtain rfl := eq_nil_of_binders (Nat.le_zero.mp hfuel)
      refine recorded [] (.after fun _ e₁ _ => ?_)
      exact (records_pure [] e₁).congr (m.due_nil (depth + 1)).symm
  | succ fuel ih =>
      intro scope e hfuel
      rw [layer_succ]
      refine recorded scope (.after fun _ e₁ _ => .after fun e₂ e₃ _ => ?_)
      obtain ⟨hperm, hproper⟩ := stations_ok e₂ (membersAt m depth scope)
      have hmembers : ∀ st ∈ stations e₂ (membersAt m depth scope), ∀ mem ∈ st.members,
          mem.matched = m.matchedIn? depth mem.sum := by
        intro st hst mem hmem
        obtain ⟨p, _, rfl⟩ := List.mem_map.mp
          (hperm.mem_iff.mp (List.mem_flatMap.mpr ⟨st, hst, hmem⟩))
        rfl
      have hstation : ∀ st ∈ stations e₂ (membersAt m depth scope), ∀ e,
          Records (tracedResolve (tracedLayer m budget fuel (depth + 1)) st)
            (resolve (layer m budget fuel (depth + 1)) st) e
            (m.due (depth + 1) (st.members.flatMap fun mem =>
              mem.sum.outline.peel (m.matchedAmong? depth))) := by
        intro st hst e
        refine .after fun tuple e₄ _ => records_star tuple e₄ (ih (depth + 1))
          (hproper st hst).members_ne_nil (hmembers st hst) ?_
        exact (binders_station_le hst).trans hfuel
      refine (records_mapM hstation e₃).congr ?_
      rw [← m.due_flatMap, ← List.flatMap_assoc, m.due_perm (depth + 1) (hperm.flatMap_right _),
        membersAt, List.flatMap_map, List.flatMap_map, List.flatMap_map]

/-! ### Pairs of terms -/

theorem records_difference {m aligned : Matching} (budget : Budget) {left right : Term}
    (h : m.aligned left right = .ok aligned) (e : Encoder) :
    Records (tracedDifference m budget left right) (difference m budget left right) e
      fun d => labels (aligned.scopeAt left right d) := by
  refine Records.congr ?_ (funext fun d => (aligned.labels_scopeAt d left right).symm)
  refine .after fun _ e₁ _ => .after fun a e₂ ha => ?_
  obtain ⟨ha, -⟩ := returns_attempt.mp ha
  cases h.symm.trans ha
  refine .after fun ⟨l, lscope⟩ e₃ hleft => .after fun ⟨r, rscope⟩ e₄ hright => ?_
  refine .after fun f e₅ _ => .after fun g e₆ _ => .after fun nulls e₇ _ => ?_
  have hfuel : binders (lscope ++ rscope) ≤ left.binderCount + right.binderCount := by
    rw [binders_append, binders_stripTerm hleft, binders_stripTerm hright]
  have hscope : (lscope ++ rscope).map Prod.snd = OpenSum.scope left right := by
    rw [List.map_append, (stripTerm_ok hleft).sums, (stripTerm_ok hright).sums, OpenSum.scope]
  rw [← hscope]
  refine ((records_layer aligned budget _ 0 _ e₇ hfuel).bind fun stars e₈ _ => ?_).congr
    (add_zero _)
  exact .after fun e₉ e₁₀ _ => records_pure _ _

/-- The encoder peels summations as the validation of a matching does: that looks for the variables
of a layer among the summations at its depth, and these are what the encoder calls a layer for,
each of them once if it succeeds and some of them otherwise. -/
theorem tracedDifference_calls (schemas : SchemaMap) {m aligned : Matching} (budget : Budget)
    {left right : Term} (h : m.aligned left right = .ok aligned) :
    (aligned.firstUnbound? 0 aligned.layers (OpenSum.scope left right) = none ↔
      ∀ d layer, aligned.layer? d = some layer →
        ∀ v ∈ layer, ∃ s ∈ aligned.scopeAt left right d, v ∈ s.vars) ∧
    ∃ calls : List Call,
      (tracedDifference m budget left right).run.run (.ofSchemas schemas, []) =
        (((difference m budget left right).run.run (.ofSchemas schemas)).1,
          ((difference m budget left right).run.run (.ofSchemas schemas)).2, calls) ∧
      (∀ d, callsAt d calls ≤ labels (aligned.scopeAt left right d)) ∧
      ∀ F, encodePair schemas m budget left right = .ok F →
        ∀ d, callsAt d calls = labels (aligned.scopeAt left right d) := by
  constructor
  · have hbound := aligned.firstUnbound?_eq_none_iff left right aligned.layers 0
    simp only [Nat.zero_add] at hbound
    exact hbound
  obtain ⟨calls, hrun, hcovers⟩ := records_difference budget h (.ofSchemas schemas) []
  refine ⟨calls, hrun, hcovers.le, fun F hF => ?_⟩
  obtain ⟨f, e, hreturns, -⟩ := encodePair_eq_ok hF
  exact hcovers.eq f (congrArg Prod.fst hreturns)

theorem tracedDifference_calls_unmatchedRows :
    (⟨[.ofList [.base "x#0", .base "z#3"], .ofList [.base "y#1"]]⟩ : Matching).aligned
      (.unmatchedRows "x#0" "y#1") (.twoRows "z#3" "w#2" (.ofWord 2)) =
        .ok ⟨[.ofList [.base "x#0", .base "z#3"], .ofList [.base "y#1"]]⟩ ∧
    ∃ calls : List Call,
      ((tracedDifference ⟨[.ofList [.base "x#0", .base "z#3"], .ofList [.base "y#1"]]⟩ .unlimited
        (.unmatchedRows "x#0" "y#1") (.twoRows "z#3" "w#2" (.ofWord 2))).run.run
          (.ofSchemas .uniform, [])).2.2 = calls ∧
      ∀ d, callsAt d calls = labels (Matching.scopeAt
        ⟨[.ofList [.base "x#0", .base "z#3"], .ofList [.base "y#1"]]⟩
        (.unmatchedRows "x#0" "y#1") (.twoRows "z#3" "w#2" (.ofWord 2)) d) := by
  have hok : (encodePair .uniform
      ⟨[.ofList [.base "x#0", .base "z#3"], .ofList [.base "y#1"]]⟩ .unlimited
      (.unmatchedRows "x#0" "y#1") (.twoRows "z#3" "w#2" (.ofWord 2))).isOk = true := by
    decide +kernel
  obtain ⟨F, hF⟩ := exists_of_isOk hok
  obtain ⟨-, calls, hrun, -, hcalls⟩ := tracedDifference_calls .uniform .unlimited
    (show (⟨[.ofList [.base "x#0", .base "z#3"], .ofList [.base "y#1"]]⟩ : Matching).aligned
      (.unmatchedRows "x#0" "y#1") (.twoRows "z#3" "w#2" (.ofWord 2)) =
        .ok ⟨[.ofList [.base "x#0", .base "z#3"], .ofList [.base "y#1"]]⟩ from rfl)
  exact ⟨rfl, calls, by rw [hrun], hcalls F hF⟩

end Encoder

/-- A product with a whole tuple, which has no value, and a summation below it. -/
def Term.tupleTimesRows (x y : String) : Term :=
  .sumOver [x] (.mul [.table "r" (.base x), .var (.base x), .const .zero,
    .sumOver [y] (.table "r" (.base y))])

/-- A run that is refused does not come to the summations below the factor that is to blame. -/
theorem Encoder.tracedDifference_calls_tupleTimesRows :
    let left : Term := .tupleTimesRows "x#0" "y#1"
    (⟨[]⟩ : Matching).aligned left (.const .zero) = .ok ⟨[]⟩ ∧
    encodePair .uniform ⟨[]⟩ .unlimited left (.const .zero) =
      .error (.error (.unsupported "tuple x#0 used as a value")) ∧
    callsAt 1 ((tracedDifference ⟨[]⟩ .unlimited left (.const .zero)).run.run
      (.ofSchemas .uniform, [])).2.2 = 0 ∧
    labels (Matching.scopeAt ⟨[]⟩ left (.const .zero) 1) = {(.left, .ofList [.base "y#1"])} :=
  ⟨rfl, rfl, by decide +kernel, by decide +kernel⟩

end BagEquiv
